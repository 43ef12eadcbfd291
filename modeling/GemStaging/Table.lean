/-!
Finite tables in ascending order of their keys. The order is part of the type, so two tables that
answer every look-up alike are equal (`Table.ext_get?`), and listing a table is listing it
in order.
-/

namespace GemStaging

universe u v

/-- A finite map, kept in strictly ascending order of its keys. -/
structure Table (κ : Type u) (ν : Type v) [Ord κ] where
  entries : List (κ × ν)
  ascending : entries.Pairwise fun a b => compare a.1 b.1 = .lt

namespace Table

variable {κ : Type u} {ν : Type v} [Ord κ]

/-- The value that a list of entries gives to a key. -/
def lookup (k : κ) : List (κ × ν) → Option ν
  | [] => none
  | (l, x) :: rest => if compare k l = .eq then some x else lookup k rest

/-- Puts an entry where the order wants it, in the place of one with the same key. -/
def place (k : κ) (x : ν) : List (κ × ν) → List (κ × ν)
  | [] => [(k, x)]
  | (l, y) :: rest =>
    match compare k l with
    | .lt => (k, x) :: (l, y) :: rest
    | .eq => (k, x) :: rest
    | .gt => (l, y) :: place k x rest

variable [Std.TransOrd κ] [Std.LawfulEqOrd κ]

omit [Std.TransOrd κ] [Std.LawfulEqOrd κ] in
theorem mem_place {k : κ} {x : ν} {es : List (κ × ν)} {e : κ × ν} (h : e ∈ place k x es) :
    e = (k, x) ∨ e ∈ es := by
  induction es with
  | nil => simpa [place] using h
  | cons f rest ih =>
    obtain ⟨l, y⟩ := f
    simp only [place] at h
    split at h <;> grind

theorem place_ascending (k : κ) (x : ν) {es : List (κ × ν)}
    (h : es.Pairwise fun a b => compare a.1 b.1 = .lt) :
    (place k x es).Pairwise fun a b => compare a.1 b.1 = .lt := by
  induction es with
  | nil => simp [place]
  | cons f rest ih =>
    obtain ⟨l, y⟩ := f
    obtain ⟨hl, hr⟩ := List.pairwise_cons.1 h
    simp only [place]
    split
    · rename_i hk
      refine List.pairwise_cons.2 ⟨?_, h⟩
      intro e he
      rcases List.mem_cons.1 he with rfl | he
      · exact hk
      · exact Std.TransCmp.lt_trans hk (hl e he)
    · rename_i hk
      have hk : k = l := Std.LawfulEqCmp.eq_of_compare hk
      subst hk
      exact List.pairwise_cons.2 ⟨hl, hr⟩
    · rename_i hk
      refine List.pairwise_cons.2 ⟨?_, ih hr⟩
      intro e he
      rcases mem_place he with rfl | he
      · exact Std.OrientedCmp.lt_of_gt hk
      · exact hl e he

omit [Std.TransOrd κ] in
theorem lookup_place (k : κ) (x : ν) (j : κ) (es : List (κ × ν)) :
    lookup j (place k x es) = if compare j k = .eq then some x else lookup j es := by
  induction es with
  | nil => simp [place, lookup]
  | cons f rest ih =>
    obtain ⟨l, y⟩ := f
    simp only [place]
    split
    · simp [lookup]
    · rename_i hk
      have hk : k = l := Std.LawfulEqCmp.eq_of_compare hk
      subst hk
      by_cases hj : compare j k = .eq <;> simp [lookup, hj]
    · rename_i hk
      simp only [lookup, ih]
      by_cases hj : compare j l = .eq
      · have hj' : j = l := Std.LawfulEqCmp.eq_of_compare hj
        subst hj'
        have : compare j k ≠ .eq := by
          intro h
          rw [Std.LawfulEqCmp.eq_of_compare h] at hk
          simp [Std.ReflCmp.compare_self] at hk
        simp [this, Std.ReflCmp.compare_self]
      · simp [hj]

def empty : Table κ ν := ⟨[], .nil⟩

def get? (t : Table κ ν) (k : κ) : Option ν := lookup k t.entries

/-- The table with the value at a key; another value at that key gives way. -/
def insert (t : Table κ ν) (k : κ) (x : ν) : Table κ ν :=
  ⟨place k x t.entries, place_ascending k x t.ascending⟩

def filter (t : Table κ ν) (keep : κ → ν → Bool) : Table κ ν :=
  ⟨t.entries.filter fun e => keep e.1 e.2, t.ascending.filter _⟩

/-- The entries of a list, a later one in the place of an earlier one with the same key. -/
def ofList (es : List (κ × ν)) : Table κ ν :=
  es.foldl (fun t e => t.insert e.1 e.2) empty

def keys (t : Table κ ν) : List κ := t.entries.map (·.1)

omit [Std.TransOrd κ] [Std.LawfulEqOrd κ] in
@[simp] theorem get?_empty (k : κ) : (empty : Table κ ν).get? k = none := rfl

theorem get?_insert (t : Table κ ν) (k j : κ) (x : ν) :
    (t.insert k x).get? j = if compare j k = .eq then some x else t.get? j :=
  lookup_place k x j t.entries

@[simp] theorem get?_insert_self (t : Table κ ν) (k : κ) (x : ν) :
    (t.insert k x).get? k = some x := by
  simp [get?_insert, Std.ReflCmp.compare_self]

theorem get?_insert_of_ne (t : Table κ ν) {k j : κ} (x : ν) (h : j ≠ k) :
    (t.insert k x).get? j = t.get? j := by
  rw [get?_insert, if_neg]
  exact fun hc => h (Std.LawfulEqCmp.eq_of_compare hc)

theorem lookup_eq_some_of_mem {es : List (κ × ν)} {k : κ} {x : ν}
    (ha : es.Pairwise fun a b => compare a.1 b.1 = .lt) (h : (k, x) ∈ es) :
    lookup k es = some x := by
  induction es with
  | nil => simp at h
  | cons f rest ih =>
    obtain ⟨l, y⟩ := f
    obtain ⟨hl, hr⟩ := List.pairwise_cons.1 ha
    rcases List.mem_cons.1 h with he | he
    · obtain ⟨rfl, rfl⟩ := by simpa using he
      simp [lookup, Std.ReflCmp.compare_self]
    · have := Std.OrientedCmp.gt_of_lt (hl _ he)
      simp [lookup, this, ih hr he]

omit [Std.TransOrd κ] in
theorem mem_of_lookup_eq_some {es : List (κ × ν)} {k : κ} {x : ν} (h : lookup k es = some x) :
    (k, x) ∈ es := by
  induction es with
  | nil => simp [lookup] at h
  | cons f rest ih =>
    obtain ⟨l, y⟩ := f
    simp only [lookup] at h
    split at h
    · rename_i hk
      have hk : k = l := Std.LawfulEqCmp.eq_of_compare hk
      simp_all
    · exact List.mem_cons_of_mem _ (ih h)

/-- An entry is listed exactly where a look-up finds it. -/
theorem mem_entries_iff (t : Table κ ν) {k : κ} {x : ν} :
    (k, x) ∈ t.entries ↔ t.get? k = some x :=
  ⟨lookup_eq_some_of_mem t.ascending, mem_of_lookup_eq_some⟩

theorem get?_filter (t : Table κ ν) (keep : κ → ν → Bool) (k : κ) :
    (t.filter keep).get? k = (t.get? k).filter (keep k) := by
  cases h : t.get? k with
  | none =>
    cases h' : (t.filter keep).get? k with
    | none => rfl
    | some x =>
      have := (t.filter keep).mem_entries_iff.2 h'
      have := t.mem_entries_iff.1 (List.mem_filter.1 this).1
      simp_all
  | some x =>
    have hx := t.mem_entries_iff.2 h
    by_cases hk : keep k x
    · have : (k, x) ∈ (t.filter keep).entries := List.mem_filter.2 ⟨hx, hk⟩
      simpa [Option.filter, hk] using (t.filter keep).mem_entries_iff.1 this
    · cases h' : (t.filter keep).get? k with
      | none => simp [Option.filter, hk]
      | some y =>
        have hy := List.mem_filter.1 ((t.filter keep).mem_entries_iff.2 h')
        have := t.mem_entries_iff.1 hy.1
        simp_all

theorem eq_of_mem_iff {as bs : List (κ × ν)}
    (ha : as.Pairwise fun a b => compare a.1 b.1 = .lt)
    (hb : bs.Pairwise fun a b => compare a.1 b.1 = .lt)
    (h : ∀ e, e ∈ as ↔ e ∈ bs) : as = bs := by
  induction as generalizing bs with
  | nil =>
    cases bs with
    | nil => rfl
    | cons b bs => exact absurd ((h b).2 (by simp)) (by simp)
  | cons a as ih =>
    cases bs with
    | nil => exact absurd ((h a).1 (by simp)) (by simp)
    | cons b bs =>
      obtain ⟨ha1, ha2⟩ := List.pairwise_cons.1 ha
      obtain ⟨hb1, hb2⟩ := List.pairwise_cons.1 hb
      have irrefl : ∀ x : κ, compare x x ≠ .lt := by simp [Std.ReflCmp.compare_self]
      have hab : a = b := by
        rcases List.mem_cons.1 ((h a).1 (by simp)) with hab | hab
        · exact hab
        · rcases List.mem_cons.1 ((h b).2 (by simp)) with hba | hba
          · exact hba.symm
          · exact absurd (Std.TransCmp.lt_trans (hb1 a hab) (ha1 b hba)) (irrefl _)
      subst hab
      refine congrArg _ (ih ha2 hb2 fun e => ?_)
      constructor
      · intro he
        rcases List.mem_cons.1 ((h e).1 (List.mem_cons_of_mem _ he)) with rfl | hm
        · exact absurd (ha1 e he) (irrefl _)
        · exact hm
      · intro he
        rcases List.mem_cons.1 ((h e).2 (List.mem_cons_of_mem _ he)) with rfl | hm
        · exact absurd (hb1 e he) (irrefl _)
        · exact hm

theorem ext_get? {s t : Table κ ν} (h : ∀ k, s.get? k = t.get? k) : s = t := by
  have : s.entries = t.entries := eq_of_mem_iff s.ascending t.ascending fun ⟨k, x⟩ => by
    rw [mem_entries_iff, mem_entries_iff, h]
  cases s; cases t; simp_all

end Table

end GemStaging
