import GemStaging.Proofs.Disk.Counting
import GemStaging.Proofs.Files.Limits
import GemStaging.Proofs.Files.Walking

/-!
Which places a tree copy comes to. A copy writes into the tree that it walks where its target lies
below its source. Each directory is listed when the copy comes to it, so what matters is whether
something new is written below an entry that is listed at the top (`Files.AddsNothing`): where this
is not so, the copy comes to entries only that were there at first, to none of them twice, counts
the files among them, and is never refused because a path has grown too long
(`Files.copyTree_visits`).
-/

namespace GemStaging.Files

open Effect Disk GemStaging.Path

variable {here : Location} {source target : Path} {names : List String} {b c d : Disk}

section Steps

/-- One step of a tree copy. A directory is listed and made: what is left to be done are the names
in it, below a longer trail. A file is copied, and nothing is left. -/
def enter (source target : Path) (above : Trail) (p : Path) :
    Files (Option (List String × Trail)) := do
  let loc ← follow above p
  let some relative := p.relativeTo? source | .fail (.io "prefix not found")
  let goal := target.join relative
  if (← Effect.get).isDirectory loc then
    let names ← (Access.list p).attempt
    ensureDir goal
    match names with
    | .error e => .fail (walkFault p e)
    | .ok names => return some (names, (p, loc) :: above)
  else
    copyFile p goal
    return none

/-- A tree copy is one step and then what is left to be done. -/
theorem copyBelow_succ (source target : Path) (fuel : Nat) (above : Trail) (p : Path) :
    copyBelow source target (fuel + 1) above p = enter source target above p >>= fun left =>
      match left with
      | none => pure 1
      | some (names, trail) =>
        sumNames (fun name => copyBelow source target fuel trail (p / name)) names := by
  rw [copyBelow, enter, bind_assoc]
  congr
  funext loc
  cases p.relativeTo? source with
  | none => rfl
  | some relative =>
    simp only
    rw [bind_assoc]
    congr
    funext d
    split
    · rw [bind_assoc]
      congr
      funext listed
      rw [bind_assoc]
      congr
      funext made
      cases listed with
      | error e => rfl
      | ok names => rfl
    · rw [bind_assoc]
      rfl

/-- The turns of a sum: which names come, each with the disk that it finds. -/
def turns (f : String → Files Nat) : List String → Location → Disk → List (String × Disk)
  | [], _, _ => []
  | name :: rest, here, c =>
    (name, c) :: match f name here c with
      | (.ok _, d) => turns f rest here d
      | (.error _, _) => []

/-- The paths that a tree copy comes to, one after another. -/
def visits (source target : Path) : Nat → Trail → Path → Location → Disk → List Path
  | 0, _, p, _, _ => [p]
  | fuel + 1, above, p, here, c =>
    p :: match enter source target above p here c with
      | (.ok (some (names, trail)), d) =>
        (turns (fun name => copyBelow source target fuel trail (p / name)) names here d).flatMap
          fun turn => visits source target fuel trail (p / turn.1) here turn.2
      | _ => []

variable (hc : c.Plain) (hsteps : source.steps ≠ []) (hnames : ∀ name ∈ names, IsName name)
include hc hsteps hnames

theorem enter_eq_ok {above : Trail} {left : Option (List String × Trail)}
    (h : enter source target above (source.below names) here c = (.ok left, d)) :
    c.get? (goal here source ++ names) = some .directory ∧
        left = some (c.names (goal here source ++ names),
          (source.below names, goal here source ++ names) :: above) ∧
        ensureDir (target.join (ofNames names)) here c = (.ok (), d) ∨
      c.get? (goal here source ++ names) ≠ some .directory ∧ left = none ∧
        copyFile (source.below names) (target.join (ofNames names)) here c = (.ok (), d) := by
  obtain ⟨loc, c₁, hfollow, h⟩ := bind_eq_ok_iff.1 h
  obtain rfl : c = c₁ := (follow_unmoved above _).of_eq hfollow
  obtain rfl : loc = goal here source ++ names := goal_below hnames ▸ follow_plain hc hfollow
  simp only [relativeTo?_below hnames hsteps] at h
  obtain ⟨disk, c₁, hget, h⟩ := bind_eq_ok_iff.1 h
  obtain ⟨rfl, rfl⟩ := ok_inj hget
  by_cases hdir : c.isDirectory (goal here source ++ names)
  · rw [if_pos hdir] at h
    obtain ⟨listed, c₁, hlist, h⟩ := bind_eq_ok_iff.1 h
    rw [attempt_apply] at hlist
    obtain ⟨hlisted, hdisk⟩ := Prod.mk.inj hlist
    obtain rfl : c = c₁ := hdisk ▸ list_unmoved _ c
    obtain ⟨⟨⟩, c', hensure, h⟩ := bind_eq_ok_iff.1 h
    cases listed with
    | error e => simp at h
    | ok listed =>
      obtain ⟨rfl, rfl⟩ := ok_inj h
      obtain ⟨-, hnames'⟩ := list_plain hc (Prod.ext (Except.ok.inj hlisted) hdisk)
      rw [goal_below hnames] at hnames'
      exact .inl ⟨by simpa [isDirectory] using hdir, by rw [hnames'], hensure⟩
  · rw [if_neg hdir] at h
    obtain ⟨⟨⟩, c', hcopy, h⟩ := bind_eq_ok_iff.1 h
    obtain ⟨rfl, rfl⟩ := ok_inj h
    exact .inr ⟨by simpa [isDirectory] using hdir, rfl, hcopy⟩

omit hsteps hnames in
theorem follow_not_tooLong {above : Trail} {p : Path} {f : Fault} (hp : Fits p)
    (h : follow above p here c = (.error f, d)) : ¬ TooLong f := by
  simp only [follow, bind_apply, get_apply, place_apply] at h
  cases hl : c.locateLink here p with
  | error e =>
    simp only [hl] at h
    obtain rfl := Except.error.inj (Prod.mk.inj h).1
    refine not_tooLong_walkFault ?_
    rintro rfl
    exact hc.locateLink_ne_tooLong hp hl
  | ok loc =>
    cases he : c.get? loc with
    | none => simp [hl, he] at h
    | some e =>
      cases e with
      | link target => exact absurd he (hc.linkless _ _)
      | _ => simp [hl, he] at h

theorem enter_not_tooLong {above : Trail} {f : Fault} (hsource : Fits (source.below names))
    (htarget : Fits (target.join (ofNames names)))
    (h : enter source target above (source.below names) here c = (.error f, d)) :
    ¬ TooLong f := by
  rcases bind_eq_error_iff.1 h with h | ⟨loc, c₁, hfollow, h⟩
  · exact follow_not_tooLong hc hsource h
  obtain rfl : c = c₁ := (follow_unmoved above _).of_eq hfollow
  simp only [relativeTo?_below hnames hsteps] at h
  rcases bind_eq_error_iff.1 h with h | ⟨disk, c₁, hget, h⟩
  · cases h
  obtain ⟨rfl, rfl⟩ := ok_inj hget
  split at h
  · rcases bind_eq_error_iff.1 h with h | ⟨listed, c₁, hlist, h⟩
    · cases h
    rw [attempt_apply] at hlist
    obtain ⟨hlisted, hdisk⟩ := Prod.mk.inj hlist
    obtain rfl : c = c₁ := hdisk ▸ list_unmoved _ c
    rcases bind_eq_error_iff.1 h with h | ⟨⟨⟩, c', -, h⟩
    · exact ensureDir_not_tooLong hc htarget h
    cases listed with
    | error e =>
      obtain rfl := Except.error.inj (Prod.mk.inj h).1
      exact not_tooLong_walkFault
        (Access.list_ne_tooLong hc hsource (Prod.ext (Except.ok.inj hlisted) hdisk))
    | ok listed => cases h
  · rcases bind_eq_error_iff.1 h with h | ⟨⟨⟩, c', -, h⟩
    · exact copyFile_not_tooLong hc hsource htarget h
    · cases h

end Steps

section Turns
variable {inv : Disk → Prop} {f : String → Files Nat}
variable (hkeeps : ∀ name ∈ names, ∀ c k d, inv c → f name here c = (.ok k, d) → inv d)
include hkeeps

theorem turns_spec (hc : inv c) :
    (turns f names here c).map Prod.fst <+: names ∧ ∀ turn ∈ turns f names here c, inv turn.2 := by
  induction names generalizing c with
  | nil => simp [turns]
  | cons name rest ih =>
    obtain ⟨hname, hrest⟩ := List.forall_mem_cons.1 hkeeps
    rw [turns]
    split
    · rename_i k d hturn
      obtain ⟨hfirsts, hinv⟩ := ih hrest (hname c k d hc hturn)
      rw [List.map_cons, List.forall_mem_cons]
      exact ⟨List.cons_prefix_cons.2 ⟨rfl, hfirsts⟩, hc, hinv⟩
    · simpa using hc

theorem exists_turn_of_error {e : Fault} (hc : inv c)
    (h : sumNames f names here c = (.error e, d)) :
    ∃ name ∈ names, ∃ c' d', inv c' ∧ f name here c' = (.error e, d') := by
  induction names generalizing c with
  | nil => cases h
  | cons name rest ih =>
    obtain ⟨hname, hrest⟩ := List.forall_mem_cons.1 hkeeps
    rcases bind_eq_error_iff.1 h with h | ⟨k, c₁, hturn, h⟩
    · exact ⟨name, List.mem_cons_self, c, d, hc, h⟩
    rcases bind_eq_error_iff.1 h with h | ⟨more, c₂, -, h⟩
    · obtain ⟨name', hmem, hfailed⟩ := ih hrest (hname c k c₁ hc hturn) h
      exact ⟨name', List.mem_cons_of_mem _ hmem, hfailed⟩
    · cases h

theorem eq_sum_of_turns {count : String → Nat} {n : Nat} (hc : inv c)
    (hcount : ∀ name ∈ names, ∀ c k d, inv c → f name here c = (.ok k, d) → k = count name)
    (h : sumNames f names here c = (.ok n, d)) : n = (names.map count).sum := by
  induction names generalizing c n d with
  | nil => exact (ok_inj h).1.symm
  | cons name rest ih =>
    obtain ⟨hname, hrest⟩ := List.forall_mem_cons.1 hkeeps
    obtain ⟨hfirst, hmore⟩ := List.forall_mem_cons.1 hcount
    obtain ⟨k, c₁, hturn, h⟩ := bind_eq_ok_iff.1 h
    obtain ⟨more, c₂, hothers, h⟩ := bind_eq_ok_iff.1 h
    obtain ⟨rfl, rfl⟩ := ok_inj h
    rw [List.map_cons, List.sum_cons, hfirst c k c₁ hc hturn,
      ih hrest (hname c k c₁ hc hturn) hmore hothers]

end Turns

section Unfed

/-- The copy writes nothing new at or below what its source lists at the top: what the path of the
target goes through there, and the places there that entries of the source are copied to, are there
already. -/
def AddsNothing (here : Location) (source target : Path) (b : Disk) : Prop :=
  ∀ name ∈ b.names (goal here source), ∀ x, goal here source ++ [name] <+: x →
    (x ∈ stops here target ∨
      ∃ rel, (b.get? (goal here source ++ rel)).isSome ∧ x = goal here target ++ rel) →
    (b.get? x).isSome

/-- Since the copy began nothing was removed, and nothing has come to stand at or below what the
source listed at the top. -/
structure Steady (here : Location) (source : Path) (b c : Disk) : Prop where
  plain : c.Plain
  atHome : c.get? here = some .directory
  grown : b.Grows c
  nothingNew : ∀ name ∈ b.names (goal here source), ∀ rest,
    (c.get? (goal here source ++ name :: rest)).isSome →
      (b.get? (goal here source ++ name :: rest)).isSome

def KeepsSteady (here : Location) (source : Path) (b c d : Disk) : Prop :=
  Steady here source b c → Steady here source b d

instance : IsPreorder Disk (KeepsSteady here source b) where
  refl _ h := h
  trans _ _ _ h h' hsteady := h' (h hsteady)

/-- A place that the copy comes to on a disk: it was there at first, and the top is listed at the
very beginning. -/
structure Reached (here : Location) (source : Path) (names : List String) (b c : Disk) : Prop where
  steady : Steady here source b c
  there : (b.get? (goal here source ++ names)).isSome
  first : names = [] → c = b

namespace Steady
variable (h : Steady here source b c)
include h

theorem of_confined (hadds : AddsNothing here source target b) (hg : c.Grows d)
    (hconfined : Confined (fun x => x ∈ stops here target ∨
      ∃ rel, (b.get? (goal here source ++ rel)).isSome ∧ x = goal here target ++ rel) c d) :
    Steady here source b d where
  plain := (hconfined h.plain).1
  atHome := hg.directory h.atHome
  grown := trans_of Grows h.grown hg
  nothingNew name hname rest hsome := by
    by_cases hwritten : goal here source ++ name :: rest ∈ stops here target ∨
        ∃ rel, (b.get? (goal here source ++ rel)).isSome ∧
          goal here source ++ name :: rest = goal here target ++ rel
    · exact hadds name hname _ (by simp [List.prefix_append_right_inj]) hwritten
    · rw [(hconfined h.plain).2 _ hwritten] at hsome
      exact h.nothingNew name hname rest hsome

end Steady

namespace Reached
variable (h : Reached here source names b c)
include h

theorem isName : ∀ name ∈ names, IsName name := fun _ hname =>
  h.steady.plain.isName_of_mem (h.steady.grown.isSome h.there) _ (List.mem_append_right _ hname)

theorem listed {name : String} (hname : name ∈ c.names (goal here source ++ names)) :
    (b.get? (goal here source ++ (names ++ [name]))).isSome := by
  have hsome := (c.mem_names_iff _ name).1 hname
  rw [List.append_assoc] at hsome
  cases names with
  | nil => rwa [h.first rfl] at hsome
  | cons first rest => exact h.steady.nothingNew first (mem_names_of_below h.there) _ hsome

theorem names_eq : c.names (goal here source ++ names) = b.names (goal here source ++ names) := by
  refine names_congr fun name => ?_
  rw [Bool.eq_iff_iff]
  constructor
  · intro hsome
    have hlisted := h.listed ((c.mem_names_iff _ name).2 hsome)
    rwa [← List.append_assoc] at hlisted
  · exact h.steady.grown.isSome

theorem get?_eq_directory_iff :
    c.get? (goal here source ++ names) = some .directory ↔
      b.get? (goal here source ++ names) = some .directory := by
  refine ⟨fun hdir => ?_, h.steady.grown.directory⟩
  obtain ⟨e, he⟩ := Option.isSome_iff_exists.1 h.there
  obtain ⟨e', he', hcontinues⟩ := h.steady.grown _ e he
  rw [hdir] at he'
  obtain rfl := Option.some.inj he'
  cases hcontinues
  exact he

theorem child {name : String} {c' : Disk} (hsteady : Steady here source b c')
    (hname : name ∈ c.names (goal here source ++ names)) :
    Reached here source (names ++ [name]) b c' where
  steady := hsteady
  there := h.listed hname
  first heq := absurd heq (by simp)

end Reached

theorem written_of_mem_stops (hsome : (b.get? (goal here source ++ names)).isSome)
    (hnames : ∀ name ∈ names, IsName name) {x : Location}
    (hx : x ∈ stops here (target.join (ofNames names))) :
    x ∈ stops here target ∨
      ∃ rel, (b.get? (goal here source ++ rel)).isSome ∧ x = goal here target ++ rel := by
  rw [stops_join_ofNames hnames] at hx
  refine (mem_stops_below hnames hx).imp_right ?_
  rintro ⟨⟨rel, rfl⟩, hbelow⟩
  rw [List.prefix_append_right_inj] at hbelow
  exact ⟨rel, isSome_upward ((List.prefix_append_right_inj _).2 hbelow) hsome, rfl⟩

section Copying
variable (hadds : AddsNothing here source target b) (hsteps : source.steps ≠ [])
include hadds hsteps

omit hsteps in
theorem steady_of_ensureDir (h : Reached here source names b c)
    (hensure : ensureDir (target.join (ofNames names)) here c = (.ok (), d)) :
    Steady here source b d := by
  refine h.steady.of_confined hadds ((ensureDir_grows _).of_eq hensure) ?_
  exact (ensureDir_confined fun x hx => written_of_mem_stops h.there h.isName hx).of_eq hensure

theorem steady_of_copyBelow {fuel : Nat} {above : Trail} {x : Except Fault Nat}
    (hne : names ≠ []) (h : Reached here source names b c)
    (hcopy : copyBelow source target fuel above (source.below names) here c = (x, d)) :
    Steady here source b d := by
  have hmoves : Moves (KeepsSteady here source b) here
      (copyBelow source target fuel above (source.below names)) := by
    refine copyBelow_moves_known (R := KeepsSteady here source b) (Steady here source b)
      (fun names => names ≠ [] ∧ (b.get? (goal here source ++ names)).isSome ∧
        ∀ name ∈ names, IsName name)
      hsteps (fun _ _ hc hsteady => hc hsteady hsteady) (fun _ hsteady => hsteady.plain)
      (fun _ hknown => hknown.2.2) ?_ ?_ ?_ fuel above ⟨hne, h.there, h.isName⟩
    · rintro c names name hsteady ⟨hne, hthere, -⟩ hlisted
      have hreached : Reached here source names b c := ⟨hsteady, hthere, fun heq => absurd heq hne⟩
      exact ⟨by simp, hreached.listed hlisted, (hreached.child hsteady hlisted).isName⟩
    · rintro names ⟨-, hthere, hnames⟩ c hsteady
      refine hsteady.of_confined hadds (ensureDir_grows _ c) ?_
      exact ensureDir_confined (fun x hx => written_of_mem_stops hthere hnames hx) c
    · rintro names ⟨-, hthere, hnames⟩ c hsteady
      refine hsteady.of_confined hadds (copyFile_grows _ _ c) ?_
      exact copyFile_confined _ (fun x hx => written_of_mem_stops hthere hnames hx) c
  exact hmoves.of_eq hcopy h.steady

theorem entered {above trail : Trail} {listed : List String} (h : Reached here source names b c)
    (henter : enter source target above (source.below names) here c =
      (.ok (some (listed, trail)), d)) :
    listed = c.names (goal here source ++ names) ∧ Steady here source b d := by
  obtain ⟨-, hleft, hensure⟩ | ⟨-, hnone, -⟩ :=
    enter_eq_ok h.steady.plain hsteps h.isName henter
  · exact ⟨(Prod.mk.inj (Option.some.inj hleft)).1, steady_of_ensureDir hadds h hensure⟩
  · cases hnone

/-- The turns of a directory keep the walk steady, and each comes to a place that was there. -/
theorem steady_of_turn (fuel : Nat) (trail : Trail) (h : Reached here source names b c) :
    ∀ name ∈ c.names (goal here source ++ names), ∀ c₁ k d₁, Steady here source b c₁ →
      copyBelow source target fuel trail (source.below names / name) here c₁ = (.ok k, d₁) →
      Steady here source b d₁ := by
  intro name hname c₁ k d₁ hsteady hcopy
  rw [← below_append] at hcopy
  exact steady_of_copyBelow hadds hsteps (by simp) (h.child hsteady hname) hcopy

theorem copyBelow_count (fuel : Nat) (above : Trail) {n : Nat}
    (h : Reached here source names b c)
    (hcopy : copyBelow source target fuel above (source.below names) here c = (.ok n, d)) :
    n = (b.filesBelow (goal here source ++ names)).card := by
  induction fuel generalizing above names n c d with
  | zero => simp [copyBelow] at hcopy
  | succ fuel ih =>
    rw [copyBelow_succ] at hcopy
    obtain ⟨left, c', henter, hcopy⟩ := bind_eq_ok_iff.1 hcopy
    rcases enter_eq_ok h.steady.plain hsteps h.isName henter with
      ⟨hdir, rfl, hensure⟩ | ⟨hdir, rfl, -⟩
    · rw [card_filesBelow (h.get?_eq_directory_iff.1 hdir), ← h.names_eq]
      refine eq_sum_of_turns (steady_of_turn hadds hsteps _ _ h)
        (steady_of_ensureDir hadds h hensure) ?_ hcopy
      intro name hname c₁ k d₁ hsteady hturn
      rw [← below_append] at hturn
      rw [ih _ (h.child hsteady hname) hturn, List.append_assoc]
    · obtain ⟨rfl, -⟩ := ok_inj hcopy
      have hdir := mt h.get?_eq_directory_iff.2 hdir
      obtain ⟨e, he⟩ := Option.isSome_iff_exists.1 h.there
      cases e with
      | directory => exact absurd he hdir
      | file content mode => rw [filesBelow_of_file he, Finset.card_singleton]
      | link target =>
        exact absurd (h.steady.grown.link he) (h.steady.plain.linkless _ _)

theorem copyBelow_not_tooLong (fuel : Nat) (above : Trail) {f : Fault}
    (hlimits : ∀ rel, (b.get? (goal here source ++ rel)).isSome →
      Fits (source.below rel) ∧ Fits (target.join (ofNames rel)))
    (hfuel : maxDepth ≤ fuel + names.length) (h : Reached here source names b c)
    (hcopy : copyBelow source target fuel above (source.below names) here c = (.error f, d)) :
    ¬ TooLong f := by
  obtain ⟨hsource, htarget⟩ := hlimits names h.there
  induction fuel generalizing above names c d with
  | zero =>
    -- so many names make a path too long
    have hshort := hsource.short
    have hlength := length_le_size_below source h.isName
    rw [pathFits, decide_eq_true_eq] at hshort
    rw [maxDepth] at hfuel
    omega
  | succ fuel ih =>
    rw [copyBelow_succ] at hcopy
    rcases bind_eq_error_iff.1 hcopy with henter | ⟨left, c', henter, hcopy⟩
    · exact enter_not_tooLong h.steady.plain hsteps h.isName hsource htarget henter
    rcases enter_eq_ok h.steady.plain hsteps h.isName henter with
      ⟨-, rfl, hensure⟩ | ⟨-, rfl, -⟩
    · obtain ⟨name, hname, c₁, d₁, hsteady, hturn⟩ := exists_turn_of_error
        (steady_of_turn hadds hsteps _ _ h) (steady_of_ensureDir hadds h hensure) hcopy
      rw [← below_append] at hturn
      have hchild := h.child hsteady hname
      obtain ⟨hsource', htarget'⟩ := hlimits _ hchild.there
      refine ih _ ?_ hchild hturn hsource' htarget'
      rw [List.length_append, List.length_singleton]
      omega
    · cases hcopy

/-- Places at or below a place of the source, no two the same, each of which was there at first. -/
def Once (here : Location) (source : Path) (b : Disk) (names : List String) (ps : List Path) :
    Prop :=
  ∃ rels : List (List String), ps = rels.map source.below ∧ rels.Nodup ∧
    ∀ rel ∈ rels, names <+: rel ∧ (b.get? (goal here source ++ rel)).isSome

omit hadds hsteps in
theorem once_flatMap {g : String × Disk → List Path} {ts : List (String × Disk)}
    (hnodup : (ts.map Prod.fst).Nodup) (hts : ∀ t ∈ ts, Once here source b (names ++ [t.1]) (g t)) :
    ∃ rels : List (List String), ts.flatMap g = rels.map source.below ∧ rels.Nodup ∧
      ∀ rel ∈ rels, (∃ t ∈ ts, names ++ [t.1] <+: rel) ∧
        (b.get? (goal here source ++ rel)).isSome := by
  induction ts with
  | nil => exact ⟨[], rfl, List.nodup_nil, by simp⟩
  | cons t ts ih =>
    rw [List.map_cons, List.nodup_cons] at hnodup
    obtain ⟨ht, hts⟩ := List.forall_mem_cons.1 hts
    obtain ⟨here', hhere, hfirst, hbelow⟩ := ht
    obtain ⟨more, hmore, hothers, hbelow'⟩ := ih hnodup.2 hts
    refine ⟨here' ++ more, by rw [List.flatMap_cons, hhere, hmore, List.map_append], ?_, ?_⟩
    · refine List.Nodup.append hfirst hothers fun rel hrel hrel' => ?_
      obtain ⟨⟨t', ht', hprefix'⟩, -⟩ := hbelow' rel hrel'
      have heq := (List.prefix_of_prefix_length_le (hbelow rel hrel).1 hprefix'
        (by simp)).eq_of_length (by simp)
      have hname : t.1 = t'.1 := by simpa using heq
      exact hnodup.1 (hname ▸ List.mem_map_of_mem ht')
    · intro rel hrel
      rcases List.mem_append.1 hrel with hrel | hrel
      · exact ⟨⟨t, List.mem_cons_self, (hbelow rel hrel).1⟩, (hbelow rel hrel).2⟩
      · obtain ⟨⟨t', ht', hprefix⟩, hsome⟩ := hbelow' rel hrel
        exact ⟨⟨t', List.mem_cons_of_mem _ ht', hprefix⟩, hsome⟩

omit hadds hsteps in
theorem Once.length_le {ps : List Path} (h : Once here source b names ps) :
    ps.length ≤ (b.entriesBelow (goal here source)).card := by
  obtain ⟨rels, rfl, hnodup, hbelow⟩ := h
  rw [List.length_map, ← List.toFinset_card_of_nodup hnodup]
  refine Finset.card_le_card_of_injOn (goal here source ++ ·) (fun rel hrel => ?_)
    (List.append_right_injective _).injOn
  exact mem_entriesBelow.2 ⟨List.prefix_append _ _, (hbelow rel (List.mem_toFinset.1 hrel)).2⟩

omit hadds hsteps in
theorem once_self (h : Reached here source names b c) :
    Once here source b names [source.below names] :=
  ⟨[names], rfl, List.nodup_singleton _, by simpa using h.there⟩

theorem once_visits (fuel : Nat) (above : Trail) (h : Reached here source names b c) :
    Once here source b names (visits source target fuel above (source.below names) here c) := by
  induction fuel generalizing above names c with
  | zero => exact once_self h
  | succ fuel ih =>
    rw [visits]
    split
    · rename_i listed trail d henter
      obtain ⟨rfl, hsteady⟩ := entered hadds hsteps h henter
      obtain ⟨hfirsts, hinv⟩ := turns_spec
        (steady_of_turn hadds hsteps fuel trail h) hsteady
      have hturns : ∀ turn ∈ turns (fun name => copyBelow source target fuel trail
            (source.below names / name)) (c.names (goal here source ++ names)) here d,
          Once here source b (names ++ [turn.1])
            (visits source target fuel trail (source.below names / turn.1) here turn.2) := by
        intro turn hturn
        rw [← below_append]
        exact ih trail (h.child (hinv turn hturn) (hfirsts.subset (List.mem_map_of_mem hturn)))
      obtain ⟨rels, hrels, hnodup, hbelow⟩ :=
        once_flatMap (hfirsts.sublist.nodup (names_nodup c _)) hturns
      refine ⟨names :: rels, by rw [hrels, List.map_cons],
        List.nodup_cons.2 ⟨fun hmem => ?_, hnodup⟩,
        List.forall_mem_cons.2 ⟨⟨List.prefix_refl names, h.there⟩, fun rel hrel => ?_⟩⟩
      · obtain ⟨⟨turn, -, hprefix⟩, -⟩ := hbelow names hmem
        have hlength := hprefix.length_le
        rw [List.length_append, List.length_singleton] at hlength
        omega
      · obtain ⟨⟨turn, -, hprefix⟩, hsome⟩ := hbelow rel hrel
        exact ⟨(List.prefix_append _ _).trans hprefix, hsome⟩
    · exact once_self h

end Copying

/-- A target that goes straight to a place which is not above the source, and not at or below an
entry that stands in it. -/
theorem addsNothing_of_not_below (hup : ".." ∉ hops target)
    (habove : ¬ goal here target <+: goal here source)
    (hbelow : ∀ name ∈ b.names (goal here source),
      ¬ goal here source ++ [name] <+: goal here target) :
    AddsNothing here source target b := by
  rintro name hname x hx (hstop | ⟨rel, -, rfl⟩)
  · exact absurd (hx.trans (prefix_goal_of_mem_stops hup hstop)) (hbelow name hname)
  · -- one of the two is a part of the other one's way
    rcases List.prefix_or_prefix_of_prefix hx (List.prefix_append (goal here target) rel) with h | h
    · exact absurd h (hbelow name hname)
    · rcases List.prefix_concat_iff.1 h with heq | h
      · exact absurd (heq ▸ List.prefix_refl _) (hbelow name hname)
      · exact absurd h habove

/-- Where nothing new is written below an entry that stands in the source, a copy comes to places
only that were there at first, and to none of them twice. It counts the files among them, and it is
not refused because a path is too long, where no path of what was there is. -/
theorem copyTree_visits (hc : c.Plain) (hhere : c.get? here = some .directory)
    (hdir : c.isDirAt here source) (hadds : AddsNothing here source target c) :
    Once here source c [] (visits source target maxDepth [] source here c) ∧
      (visits source target maxDepth [] source here c).length ≤
        (c.entriesBelow (goal here source)).card ∧
      (∀ n d, copyTree source target here c = (.ok n, d) →
        n = (c.filesBelow (goal here source)).card) ∧
      ((∀ rel, (c.get? (goal here source ++ rel)).isSome →
          Fits (source.below rel) ∧ Fits (target.join (ofNames rel))) →
        ∀ f d, copyTree source target here c = (.error f, d) → ¬ TooLong f) := by
  have hsteps : source.steps ≠ [] := steps_ne_nil_of_isDirAt hdir
  have hthere : c.get? (goal here source) = some .directory :=
    stops_of_isDirAt hc hhere hdir _ (goal_mem_stops here source)
  have hreached : Reached here source [] c c :=
    { steady := ⟨hc, hhere, refl_of Grows c, fun _ _ _ h => h⟩
      there := by rw [List.append_nil, hthere]; rfl
      first := fun _ => rfl }
  have honce := once_visits hadds hsteps maxDepth [] hreached
  refine ⟨honce, honce.length_le, fun n d h => ?_, fun hlimits f d h => ?_⟩
  · rw [copyTree_apply hdir] at h
    simpa using copyBelow_count hadds hsteps maxDepth [] hreached h
  · rw [copyTree_apply hdir] at h
    exact copyBelow_not_tooLong hadds hsteps maxDepth [] hlimits (by simp) hreached h

section Samples

def nestedTree : Disk :=
  diskOf [([], "src", .directory), (["src"], "a", .file [65] .data), (["src"], "s", .directory),
    (["src", "s"], "b", .file [66] .data)]

/-- A copy to a new place in the directory that is copied does not come to that place. -/
theorem copyTree_visits_sample :
    (visits ⟨"src"⟩ ⟨"src/new"⟩ maxDepth [] ⟨"src"⟩ [] nestedTree).length ≤ 4 ∧
      ∃ d, copyTree ⟨"src"⟩ ⟨"src/new"⟩ [] nestedTree = (.ok 2, d) := by
  have hadds : AddsNothing [] ⟨"src"⟩ ⟨"src/new"⟩ nestedTree :=
    addsNothing_of_not_below (by decide) (by decide) (by decide +kernel)
  obtain ⟨-, hlength, hcount, -⟩ :=
    copyTree_visits (plain_diskOf (by decide)) (get?_root nestedTree) (by decide) hadds
  have hentries : (nestedTree.entriesBelow ["src"]).card = 4 := by decide +kernel
  have hfiles : (nestedTree.filesBelow ["src"]).card = 2 := by decide +kernel
  refine ⟨hlength.trans_eq hentries, ?_⟩
  have hok : (copyTree ⟨"src"⟩ ⟨"src/new"⟩ [] nestedTree).1.isOk := by decide +kernel
  rcases hcopy : copyTree ⟨"src"⟩ ⟨"src/new"⟩ [] nestedTree with ⟨n | n, d⟩
  · rw [hcopy] at hok
    cases hok
  · obtain rfl : n = 2 := (hcount n d hcopy).trans hfiles
    exact ⟨d, rfl⟩

def holderTree : Disk :=
  diskOf [([], "src", .directory), (["src"], "a", .file [65] .data), (["src"], "d", .directory)]

/-- A copy into a directory that stands in the one that is copied copies what it has put there. -/
theorem output_copied_sample :
    holderTree.get? ["src", "d", "a"] = none ∧ (holderTree.filesBelow ["src"]).card = 1 ∧
      (copyTree ⟨"src"⟩ ⟨"src/d"⟩ [] holderTree).1 = .ok 2 ∧
      (copyTree ⟨"src"⟩ ⟨"src/d"⟩ [] holderTree).2.get? ["src", "d", "d", "a"] =
        some (.file [65] .data) := by
  refine ⟨?_, ?_, ?_, ?_⟩ <;> decide +kernel

end Samples

end Unfed

end GemStaging.Files
