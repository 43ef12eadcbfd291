import GemStaging.Proofs.Disk.Plain

/-!
Disks that agree in a region. What a path leads to on a disk without links is decided by the
places that it goes through, and what is listed there by the places right below: disks that agree
at those cannot be told apart by looking.
-/

namespace GemStaging.Disk

open GemStaging.Path

variable {region : Location → Prop} {here : Location} {b c d : Disk} {p : Path} {purpose : Purpose}

def Agree (region : Location → Prop) (c d : Disk) : Prop :=
  ∀ loc, region loc → c.get? loc = d.get? loc

namespace Agree

theorem refl (d : Disk) : Agree region d d := fun _ _ => rfl

theorem trans (h : Agree region b c) (h' : Agree region c d) : Agree region b d := fun loc hloc =>
  (h loc hloc).trans (h' loc hloc)

variable (hc : c.Plain) (h : Agree region c d)
include hc h

theorem resolve (hp : ∀ x ∈ stops here p, region x) :
    c.resolve here purpose p = d.resolve here purpose p :=
  hc.resolve_congr fun x hx => h x (hp x hx)

theorem locate (hp : ∀ x ∈ stops here p, region x) : c.locate here p = d.locate here p := by
  rw [Disk.locate, h.resolve hc hp, Disk.locate]

/-- Where a directory is, and whatever stands right below it, both disks list the same names. -/
theorem namesAt (hp : ∀ x ∈ stops here p, region x)
    (hbelow : ∀ name, region (goal here p ++ [name])) : c.namesAt here p = d.namesAt here p := by
  rw [Disk.namesAt, Disk.namesAt, ← h.locate hc hp]
  split
  · rename_i loc hl
    obtain rfl : loc = goal here p := hc.loc_of_resolve (locate_eq_ok_iff.1 hl)
    exact names_congr fun name => by rw [h _ (hbelow name)]
  · rfl

end Agree

structure Twins (region : Location → Prop) (c d : Disk) : Prop where
  left : c.Plain
  right : d.Plain
  agree : Agree region c d

/-- With a place a region holds what the place stands in. -/
def Rooted (region : Location → Prop) : Prop := ∀ dir name, region (dir ++ [name]) → region dir

namespace Twins

section Looking
variable (h : Twins region c d) (hp : ∀ x ∈ stops here p, region x)
include h hp

theorem resolve : c.resolve here purpose p = d.resolve here purpose p := h.agree.resolve h.left hp

theorem locate : c.locate here p = d.locate here p := h.agree.locate h.left hp

theorem locateLink : c.locateLink here p = d.locateLink here p := by
  rw [Disk.locateLink, h.resolve hp, Disk.locateLink]

theorem at? : c.at? here p = d.at? here p := by
  rw [Disk.at?, Disk.at?, ← h.locate hp]
  split
  · rename_i loc hl
    obtain rfl : loc = goal here p := h.left.loc_of_resolve (locate_eq_ok_iff.1 hl)
    exact h.agree _ (hp _ (goal_mem_stops here p))
  · rfl

theorem isDirAt : c.isDirAt here p = d.isDirAt here p := by
  rw [Disk.isDirAt, h.at? hp, Disk.isDirAt]

theorem isFileAt : c.isFileAt here p = d.isFileAt here p := by
  rw [Disk.isFileAt, h.at? hp, Disk.isFileAt]

theorem existsAt : c.existsAt here p = d.existsAt here p := by
  rw [Disk.existsAt, h.at? hp, Disk.existsAt]

theorem filter_namesAt {test : String → Bool}
    (htest : ∀ name, test name → region (goal here p ++ [name])) :
    (c.namesAt here p).filter test = (d.namesAt here p).filter test := by
  refine ((namesAt_ascending c here p).filter _).eq_of_mem_iff
    ((namesAt_ascending d here p).filter _) fun name => ?_
  rw [List.mem_filter, List.mem_filter]
  refine and_congr_left fun hname => ?_
  rw [mem_namesAt_iff, mem_namesAt_iff, h.resolve hp]
  refine exists_congr fun loc => and_congr_right fun hl => ?_
  obtain rfl : loc = goal here p := h.right.loc_of_resolve hl
  rw [h.agree _ (htest name hname)]

theorem find?_namesAt {test : String → Bool}
    (htest : ∀ name, test name → region (goal here p ++ [name])) :
    (c.namesAt here p).find? test = (d.namesAt here p).find? test := by
  rw [← List.head?_filter, ← List.head?_filter, h.filter_namesAt hp htest]

end Looking

theorem file? (h : Twins region c d) {loc : Location} (hloc : region loc) :
    c.file? loc = d.file? loc := by
  rw [Disk.file?, h.agree loc hloc, Disk.file?]

theorem isDirectory (h : Twins region c d) {loc : Location} (hloc : region loc) :
    c.isDirectory loc = d.isDirectory loc := by
  rw [Disk.isDirectory, h.agree loc hloc, Disk.isDirectory]

theorem put (h : Twins region c d) (hrooted : Rooted region) {dir : Location} {name : String}
    {e : Entry} (hloc : region (dir ++ [name])) (hname : IsName name)
    (he : ∀ target, e ≠ .link target) :
    Twins region (c.put dir name e) (d.put dir name e) := by
  refine ⟨h.left.put hname he, h.right.put hname he, fun loc hmem => ?_⟩
  have hadmits : c.admits dir name e ↔ d.admits dir name e := by
    rw [admits, admits, h.agree _ hloc, h.agree _ (hrooted dir name hloc)]
  by_cases ha : c.admits dir name e
  · rw [get?_put ha, get?_put (hadmits.1 ha), h.agree loc hmem]
  · rw [Disk.put, Disk.put, dif_neg ha, dif_neg (mt hadmits.2 ha)]
    exact h.agree loc hmem

end Twins

end GemStaging.Disk
