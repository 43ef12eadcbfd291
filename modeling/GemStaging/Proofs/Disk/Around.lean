import GemStaging.Proofs.Disk.Plain

/-!
How paths lie to one another by their names. A path is straight when it does not go through places
below its goal, and two paths are apart when neither leads through, or to, places below the goal of
the other one. For paths that never move up this says no more than that the goals are not nested
(`straight_of_not_up`, `apart_of_not_up`).
-/

namespace GemStaging.Disk

open GemStaging.Path

variable {here : Location}

/-- On the way to where a path leads, there, or below. -/
def Around (here : Location) (p : Path) (loc : Location) : Prop :=
  loc ∈ stops here p ∨ goal here p <+: loc

/-- The path does not go through places below its goal. -/
def Straight (here : Location) (p : Path) : Prop :=
  ∀ x ∈ stops here p, goal here p <+: x → x = goal here p

theorem not_append_prefix {loc rest : Location} (h : rest ≠ []) : ¬ loc ++ rest <+: loc := by
  intro hbelow
  have hlength := hbelow.length_le
  rw [List.length_append] at hlength
  exact h (List.length_eq_zero_iff.1 (by omega))

theorem Straight.not_prefix {p : Path} (hp : Straight here p) {names : List String}
    (h : ∀ name ∈ names, IsName name) {x : Location} (hx : x ∈ stops here (p.below names))
    (name : String) : ¬ goal here p ++ names ++ [name] <+: x := by
  intro hbelow
  rcases mem_stops_below h hx with hx | ⟨-, hx⟩
  · rw [List.append_assoc] at hbelow
    rw [hp x hx ((List.prefix_append _ _).trans hbelow)] at hbelow
    exact not_append_prefix (by simp) hbelow
  · exact not_append_prefix (by simp) (hbelow.trans hx)

theorem Straight.not_prefix_goal {p : Path} (hp : Straight here p) {x : Location}
    (hx : x ∈ stops here p) (name : String) : ¬ goal here p ++ [name] <+: x := by
  have hbelow := hp.not_prefix (by simp : ∀ n ∈ [], IsName n) hx name
  rwa [List.append_nil] at hbelow

theorem Straight.div {p : Path} (hp : Straight here p) {name : String} (h : IsName name) :
    Straight here (p / name) := by
  unfold Straight
  rw [goal_div h, forall_mem_stops_div h]
  refine ⟨?_, fun _ => rfl⟩
  intro x hx hbelow
  exact absurd hbelow (hp.not_prefix_goal hx name)

/-- Neither path leads to, or goes through, a place that is the goal of the other one or lies
below it. -/
def Apart (here : Location) (p q : Path) : Prop :=
  (∀ x ∈ stops here p, ¬ goal here q <+: x) ∧ ∀ x ∈ stops here q, ¬ goal here p <+: x

theorem Apart.symm {p q : Path} (h : Apart here p q) : Apart here q p := And.symm h

theorem Apart.not_below {p q : Path} (h : Apart here p q) {x : Location} (hx : Around here p x) :
    ¬ goal here q <+: x := by
  rcases hx with hx | hx
  · exact h.1 x hx
  · intro hx'
    rcases List.prefix_or_prefix_of_prefix hx hx' with hp | hq
    · exact h.2 _ (goal_mem_stops here q) hp
    · exact h.1 _ (goal_mem_stops here p) hq

theorem Apart.below {p q : Path} (h : Apart here p q) {names : List String}
    (hnames : ∀ name ∈ names, IsName name) : Apart here (p.below names) q := by
  constructor
  · intro x hx
    exact h.not_below ((mem_stops_below hnames hx).imp_right (·.1))
  · intro x hx hbelow
    rw [goal_below hnames] at hbelow
    exact h.2 x hx ((List.prefix_append _ _).trans hbelow)

theorem prefix_foldl_step {loc : Location} {hops : List String} (h : ".." ∉ hops) :
    loc <+: hops.foldl step loc := by
  induction hops generalizing loc with
  | nil => exact List.prefix_refl _
  | cons hop rest ih =>
    obtain ⟨hhop, hrest⟩ := not_or.1 (mt List.mem_cons.2 h)
    refine List.IsPrefix.trans ?_ (ih hrest)
    rw [step, if_neg (Ne.symm hhop)]
    split
    · exact List.prefix_refl _
    · exact List.prefix_append _ _

theorem prefix_of_mem_stopsFrom {loc x : Location} {hops : List String} (h : ".." ∉ hops)
    (hx : x ∈ stopsFrom loc hops) : x <+: hops.foldl step loc := by
  induction hops generalizing loc with
  | nil =>
    obtain rfl := List.mem_singleton.1 hx
    exact List.prefix_refl _
  | cons hop rest ih =>
    rcases List.mem_cons.1 hx with rfl | hx
    · exact prefix_foldl_step h
    · exact ih (not_or.1 (mt List.mem_cons.2 h)).2 hx

section Descending
variable {p q : Path} (hp : ".." ∉ hops p)
include hp

theorem prefix_goal_of_mem_stops {x : Location} (hx : x ∈ stops here p) : x <+: goal here p :=
  prefix_of_mem_stopsFrom hp hx

theorem straight_of_not_up : Straight here p := fun _ hx hbelow =>
  (prefix_goal_of_mem_stops hp hx).eq_of_length_le hbelow.length_le

theorem apart_of_not_up (hq : ".." ∉ hops q) (hpq : ¬ goal here p <+: goal here q)
    (hqp : ¬ goal here q <+: goal here p) : Apart here p q :=
  ⟨fun _ hx hbelow => hqp (hbelow.trans (prefix_goal_of_mem_stops hp hx)),
    fun _ hx hbelow => hpq (hbelow.trans (prefix_goal_of_mem_stops hq hx))⟩

end Descending

/-- A path that is put behind the one of the current directory goes down to that directory first. -/
theorem prefix_or_mem_stops_of_pathOf {p : Path} (hhere : ∀ name ∈ here, IsName name)
    (hp : p.isAbsolute = false) {x : Location} (hx : x ∈ stops here ((pathOf here).join p)) :
    x <+: here ∨ x ∈ stops here p := by
  have hroot : origin (pathOf here) here = [] := by simp [origin, isAbsolute, pathOf]
  have horigin : origin p here = here := by
    rw [origin, hp]
    rfl
  have hgoal : here.foldl step [] = here := by simpa using foldl_step_names [] hhere
  rw [stops, origin_join hp, hroot, hops_join hp, hops_pathOf hhere, mem_stopsFrom_append_iff,
    hgoal] at hx
  rw [stops, horigin]
  refine hx.imp_left ?_
  intro hx
  have hup : ".." ∉ here := fun hmem => (hhere _ hmem).notUp rfl
  have hway := prefix_of_mem_stopsFrom hup hx
  rwa [hgoal] at hway

theorem around_of_around_below {p : Path} {names : List String} (h : ∀ name ∈ names, IsName name)
    {x : Location} (hx : Around here (p.below names) x) : Around here p x := by
  rcases hx with hx | hx
  · exact (mem_stops_below h hx).imp_right (·.1)
  · rw [goal_below h] at hx
    exact .inr ((List.prefix_append _ _).trans hx)

theorem around_of_around_div {p : Path} {name : String} (h : IsName name) {x : Location}
    (hx : Around here (p / name) x) : Around here p x :=
  around_of_around_below (by simpa using h : ∀ n ∈ [name], IsName n) hx

theorem around_of_mem_stops_join {p : Path} {names : List String} (h : ∀ name ∈ names, IsName name)
    {x : Location} (hx : x ∈ stops here (p.join (ofNames names))) : Around here p x := by
  rw [stops_join_ofNames h] at hx
  exact around_of_around_below h (.inl hx)

theorem around_of_mem_stops_div {p : Path} {name : String} (h : IsName name)
    {x : Location} (hx : x ∈ stops here (p / name)) : Around here p x :=
  around_of_around_div h (.inl hx)

end GemStaging.Disk
