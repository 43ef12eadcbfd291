import GemStaging.Proofs.Files.Clearing
import GemStaging.Proofs.Staging.Merging

/-!
Getting one archive. The courses that a fetch can take are said once (`Repository.Fetches`). A fetch
that fails leaves every file as it was, unless a copy from the local repository is cut short
(`Repository.fetch_error_clears`): a download is not in its place before it is complete, but a copy
is. A fetch that succeeds has the archive from the first source that has it
(`Repository.fetch_takes_first`). The archive is looked for before its directory is made: one that
the path leads to only then is overwritten (`Repository.unearthed_samples`).
-/

namespace GemStaging

open Effect Disk GemStaging.Path

variable {here : Location} {c d : Disk}

theorem Disk.endsInSlash_div_of_getLast? {base : Path} {name : String} {last : Char}
    (h : name.toList.getLast? = some last) (hlast : last ≠ '/') :
    endsInSlash (base / name) = false := by
  have hends (front : String) : (front ++ name).toList.getLast? = some last := by
    rw [String.toList_append, List.getLast?_append, h]
    rfl
  rw [endsInSlash, beq_eq_false_iff_ne]
  change (base.join ⟨name⟩).text.toList.getLast? ≠ some '/'
  rw [Path.join]
  split
  · simpa [h] using hlast
  · split
    · simpa only [hends, ne_eq, Option.some.injEq] using hlast
    · simpa only [hends, ne_eq, Option.some.injEq] using hlast

namespace Staging

theorem endsInSlash_archive (dir : Path) (p : Package) :
    endsInSlash (dir / p.archiveName) = false := by
  have hlast : p.archiveName.toList.getLast? = some 'm' := by simp [Package.archiveName]
  exact endsInSlash_div_of_getLast? hlast (by decide)

theorem keepDownload_eq_ok {bytes : Bytes} {target : Path}
    (h : keepDownload bytes target here c = (.ok (), d)) :
    bytes.length ≤ Access.maxFile ∧
      ∃ dir name, c.resolve here .lookAtLink target = .ok (.free dir name) ∧
        d = c.put dir name (.file bytes .data) := by
  simp only [keepDownload, bind_apply, place_apply, get_apply] at h
  generalize c.resolve here .makeFile _ = unfinished at h
  cases unfinished with
  | error e => cases (Prod.mk.inj h).1
  | ok t =>
    by_cases hlarge : Access.maxFile < bytes.length
    · simp only [if_pos hlarge] at h
      cases (Prod.mk.inj h).1
    simp only [if_neg hlarge] at h
    cases hx : c.resolve here .lookAtLink target with
    | error e =>
      rw [hx] at h
      cases (Prod.mk.inj h).1
    | ok t =>
      rw [hx] at h
      cases t with
      | entry loc => cases (Prod.mk.inj h).1
      | free dir name => exact ⟨Nat.not_lt.1 hlarge, dir, name, rfl, (Prod.mk.inj h).2.symm⟩

theorem keepDownload_eq_error {bytes : Bytes} {target : Path} {f : Fault}
    (h : keepDownload bytes target here c = (.error f, d)) : d = c := by
  simp only [keepDownload, bind_apply, place_apply, get_apply] at h
  generalize c.resolve here .makeFile _ = unfinished at h
  cases unfinished with
  | error e => exact (Prod.mk.inj h).2.symm
  | ok t =>
    by_cases hlarge : Access.maxFile < bytes.length
    · simp only [if_pos hlarge] at h
      exact (Prod.mk.inj h).2.symm
    simp only [if_neg hlarge] at h
    generalize c.resolve here .lookAtLink target = taken at h
    cases taken with
    | error e => exact (Prod.mk.inj h).2.symm
    | ok t =>
      cases t with
      | entry loc => exact (Prod.mk.inj h).2.symm
      | free dir name => cases (Prod.mk.inj h).1

theorem keepDownload_places {bytes : Bytes} {target : Path}
    (hhere : c.get? here = some .directory) (hslash : endsInSlash target = false)
    (h : keepDownload bytes target here c = (.ok (), d)) :
    ∃ place, d.locate here target = .ok place ∧ c.get? place = none ∧
      d.get? place = some (.file bytes .data) ∧ ∀ loc, loc ≠ place → d.get? loc = c.get? loc := by
  obtain ⟨-, dir, name, hfree, rfl⟩ := keepDownload_eq_ok h
  obtain ⟨hdir, hnone⟩ := resolve_sound hhere hfree
  have hput : (c.put dir name (.file bytes .data)).get? (dir ++ [name]) =
      some (.file bytes .data) := by
    rw [get?_put ⟨hdir, by simp [hnone]⟩, if_pos rfl]
  refine ⟨dir ++ [name], ?_, hnone, hput, fun loc hne => get?_put_of_ne hne⟩
  exact locate_eq_ok_iff.2 ((Extends.put_new hnone _).grows.arrives (.inl rfl) rfl
    (resolve_free hslash hfree) (.inr ⟨⟨_, _, hput⟩, .inl rfl⟩))

section Peeling
variable {α β : Type} {f : α → Work β} {m m' : Machine} {x : Except Fault β}

theorem of_note_bind {level : Log.Level} {source message : String}
    {fields : List (String × String)} {f : Unit → Work β}
    (h : (Work.note level source message fields >>= f) here m = (x, m')) :
    ∃ m₁, m.OnlyLogged m₁ ∧ f () here m₁ = (x, m') := by
  obtain ⟨m₁, hnote, hlogged⟩ := Work.note_apply level source message fields m
  rw [bind_apply_ok hnote] at h
  exact ⟨m₁, hlogged, h⟩

theorem of_getBytes_bind {t : Http.Transport} {url : String} {f : Bytes → Work β}
    (h : (Http.getBytes t url >>= f) here m = (x, m')) :
    ∃ m₁, m₁.disk = m.disk ∧ m₁.requests = m.requests ++ [url] ∧
      ((∃ c, t.answer m.requests url = .error c ∧ x = .error c ∧ m' = m₁) ∨
        ∃ bytes, t.answer m.requests url = .ok bytes ∧ f bytes here m₁ = (x, m')) := by
  have hget : ∃ m₁, Http.getBytes t url here m = (t.answer m.requests url, m₁) ∧
      m₁.disk = m.disk ∧ m₁.requests = m.requests ++ [url] := ⟨_, rfl, rfl, rfl⟩
  obtain ⟨m₁, hget, hdisk, hrequests⟩ := hget
  refine ⟨m₁, hdisk, hrequests, ?_⟩
  cases hanswer : t.answer m.requests url with
  | error c =>
    rw [hanswer] at hget
    rw [bind_apply_error hget] at h
    obtain ⟨rfl, rfl⟩ := Prod.mk.inj h
    exact .inl ⟨c, rfl, rfl, rfl⟩
  | ok bytes =>
    rw [hanswer] at hget
    rw [bind_apply_ok hget] at h
    exact .inr ⟨bytes, rfl, h⟩

theorem of_lift_pure {e : Files Unit} {q : β} (hdisk : m.disk = c)
    (h : ((liftM e : Work Unit) >>= fun _ => pure q) here m = (x, m')) :
    ∃ y, e here c = (y, m'.disk) ∧ x = y.map (fun _ => q) ∧ m'.requests = m.requests := by
  subst hdisk
  cases he : e here m.disk with
  | mk y d =>
    refine ⟨y, ?_⟩
    rw [bind_apply, Files.lift_apply, he] at h
    cases y with
    | error f =>
      obtain ⟨rfl, rfl⟩ := Prod.mk.inj h
      exact ⟨rfl, rfl, rfl⟩
    | ok =>
      obtain ⟨rfl, rfl⟩ := Prod.mk.inj h
      exact ⟨rfl, rfl, rfl⟩

end Peeling

namespace Repository

/-- Where the local repository has the archive of a package. -/
def Stocks (r : Repository) (p : Package) (here : Location) (d : Disk) (candidate : Path) : Prop :=
  ∃ localDir, r.localDir = some localDir ∧ candidate = localDir.join p.repositoryPath ∧
    d.isFileAt here candidate

section Courses
variable (r : Repository) (p : Package) (dir : Path) (here : Location) (m : Machine)

/-- The courses of a fetch: the archive is there, its directory is refused, it is copied, it is in
neither place, its request fails, or it is downloaded. -/
inductive Fetches : Except Fault Path → Machine → Prop where
  | present {m' : Machine} : m.disk.isFileAt here (dir / p.archiveName) → m.OnlyLogged m' →
      Fetches (.ok (dir / p.archiveName)) m'
  | refused {f : Fault} {m' : Machine} : ¬ m.disk.isFileAt here (dir / p.archiveName) →
      Files.ensureDir dir here m.disk = (.error f, m'.disk) → m'.requests = m.requests →
      Fetches (.error f) m'
  | copied {c : Disk} {candidate : Path} {x : Except Fault Unit} {m' : Machine} :
      ¬ m.disk.isFileAt here (dir / p.archiveName) →
      Files.ensureDir dir here m.disk = (.ok (), c) → r.Stocks p here c candidate →
      Files.copyFile candidate (dir / p.archiveName) here c = (x, m'.disk) →
      m'.requests = m.requests → Fetches (x.map fun _ => dir / p.archiveName) m'
  | missing {c : Disk} : ¬ m.disk.isFileAt here (dir / p.archiveName) →
      Files.ensureDir dir here m.disk = (.ok (), c) →
      (∀ candidate, ¬ r.Stocks p here c candidate) → r.remote = none →
      Fetches (.error (.archiveMissing p.name p.version (dir / p.archiveName).text))
        { m with disk := c }
  | unanswered {c : Disk} {remote : String} {f : Fault} {m' : Machine} :
      ¬ m.disk.isFileAt here (dir / p.archiveName) →
      Files.ensureDir dir here m.disk = (.ok (), c) →
      (∀ candidate, ¬ r.Stocks p here c candidate) → r.remote = some remote →
      r.transport.answer m.requests (address remote p) = .error f → m'.disk = c →
      m'.requests = m.requests ++ [address remote p] → Fetches (.error f) m'
  | downloaded {c : Disk} {remote : String} {bytes : Bytes} {x : Except Fault Unit}
      {m' : Machine} : ¬ m.disk.isFileAt here (dir / p.archiveName) →
      Files.ensureDir dir here m.disk = (.ok (), c) →
      (∀ candidate, ¬ r.Stocks p here c candidate) → r.remote = some remote →
      r.transport.answer m.requests (address remote p) = .ok bytes →
      keepDownload bytes (dir / p.archiveName) here c = (x, m'.disk) →
      m'.requests = m.requests ++ [address remote p] →
      Fetches (x.map fun _ => dir / p.archiveName) m'

end Courses

variable {r : Repository} {p : Package} {dir q : Path} {f : Fault} {m m' : Machine}

theorem stocks_iff {localDir candidate : Path} (h : r.localDir = some localDir) :
    r.Stocks p here d candidate ↔ candidate = localDir.join p.repositoryPath ∧
      d.isFileAt here (localDir.join p.repositoryPath) := by
  constructor
  · rintro ⟨l, hl, rfl, hfile⟩
    obtain rfl := Option.some.inj (hl.symm.trans h)
    exact ⟨rfl, hfile⟩
  · rintro ⟨rfl, hfile⟩
    exact ⟨localDir, h, rfl, hfile⟩

theorem Stocks.unique {candidate candidate' : Path} (h : r.Stocks p here d candidate)
    (h' : r.Stocks p here d candidate') : candidate' = candidate := by
  obtain ⟨localDir, hl, rfl, -⟩ := h
  exact ((stocks_iff hl).1 h').1

theorem Stocks.found {candidate : Path} (h : r.Stocks p here d candidate) :
    ∃ loc content mode, d.locate here candidate = .ok loc ∧
      d.get? loc = some (.file content mode) := by
  obtain ⟨localDir, -, -, hfile⟩ := h
  obtain ⟨loc, content, mode, hl, hfile⟩ := isFileAt_iff.1 hfile
  exact ⟨loc, content, mode, locate_eq_ok_iff.2 hl, hfile⟩

theorem fetches_download (habsent : ¬ m.disk.isFileAt here (dir / p.archiveName))
    (hmade : Files.ensureDir dir here m.disk = (.ok (), c))
    (hstock : ∀ candidate, ¬ r.Stocks p here c candidate) {x : Except Fault Path}
    (h : r.download p (dir / p.archiveName) here { m with disk := c } = (x, m')) :
    r.Fetches p dir here m x m' := by
  rw [download] at h
  cases hremote : r.remote with
  | none =>
    rw [hremote] at h
    obtain ⟨rfl, rfl⟩ := Prod.mk.inj h
    exact .missing habsent hmade hstock hremote
  | some remote =>
    rw [hremote] at h
    obtain ⟨m₁, ⟨hdisk₁, hrequests₁⟩, h⟩ := of_note_bind h
    obtain ⟨m₂, hdisk₂, hrequests₂, h⟩ := of_getBytes_bind h
    have hdisk : m₂.disk = c := hdisk₂.trans hdisk₁
    have hrequests : m₂.requests = m.requests ++ [address remote p] := by
      rw [hrequests₂, hrequests₁]
    rw [show m₁.requests = m.requests from hrequests₁] at h
    rcases h with ⟨f, hanswer, rfl, rfl⟩ | ⟨bytes, hanswer, h⟩
    · exact .unanswered habsent hmade hstock hremote hanswer hdisk hrequests
    · obtain ⟨y, hkept, rfl, hrequests'⟩ := of_lift_pure hdisk h
      exact .downloaded habsent hmade hstock hremote hanswer hkept (hrequests'.trans hrequests)

theorem fetches (r : Repository) (p : Package) (dir : Path) (here : Location) (m : Machine) :
    r.Fetches p dir here m (r.fetch p dir here m).1 (r.fetch p dir here m).2 := by
  generalize hx : r.fetch p dir here m = x
  obtain ⟨x, m'⟩ := x
  have hthere : (liftM (Access.isFile (dir / p.archiveName) : Files Bool) : Work Bool) here m =
      (.ok (m.disk.isFileAt here (dir / p.archiveName)), m) := rfl
  rw [fetch, bind_apply_ok hthere] at hx
  by_cases hpresent : m.disk.isFileAt here (dir / p.archiveName)
  · rw [if_pos hpresent] at hx
    obtain ⟨rfl, rfl⟩ := Prod.mk.inj hx
    exact .present hpresent ⟨rfl, rfl⟩
  rw [if_neg hpresent] at hx
  obtain ⟨f, c, hmade⟩ | ⟨⟨⟩, c, hmade⟩ := error_or_ok (Files.ensureDir dir) here m.disk
  · have hlift : (liftM (Files.ensureDir dir) : Work Unit) here m =
        (.error f, { m with disk := c }) := by rw [Files.lift_apply, hmade]
    rw [bind_apply_error hlift] at hx
    obtain ⟨rfl, rfl⟩ := Prod.mk.inj hx
    exact .refused hpresent hmade rfl
  have hlift : (liftM (Files.ensureDir dir) : Work Unit) here m =
      (.ok (), { m with disk := c }) := by rw [Files.lift_apply, hmade]
  rw [bind_apply_ok hlift] at hx
  cases hlocal : r.localDir with
  | none =>
    rw [hlocal] at hx
    refine fetches_download hpresent hmade ?_ hx
    rintro candidate ⟨localDir, hl, -⟩
    rw [hlocal] at hl
    cases hl
  | some localDir =>
    rw [hlocal] at hx
    simp only at hx
    have hthere : (liftM (Access.isFile (localDir.join p.repositoryPath) : Files Bool) :
        Work Bool) here { m with disk := c } =
          (.ok (c.isFileAt here (localDir.join p.repositoryPath)), { m with disk := c }) := rfl
    rw [bind_apply_ok hthere] at hx
    by_cases hfile : c.isFileAt here (localDir.join p.repositoryPath)
    · rw [if_pos hfile] at hx
      obtain ⟨m₁, ⟨hdisk, hrequests⟩, hx⟩ := of_note_bind hx
      obtain ⟨y, hcopy, rfl, hrequests'⟩ := of_lift_pure hdisk hx
      exact .copied hpresent hmade ⟨localDir, hlocal, rfl, hfile⟩ hcopy
        (hrequests'.trans hrequests)
    · rw [if_neg hfile] at hx
      refine fetches_download hpresent hmade ?_ hx
      intro candidate hstock
      exact hfile ((stocks_iff hlocal).1 hstock).2

/-- A local repository that has the archive of a package, and a directory with another one. -/
def shelves : Machine where
  disk := diskOf [([], "l", .directory), (["l"], "rubygems", .directory),
    (["l", "rubygems"], "a", .directory), (["l", "rubygems", "a"], "1", .directory),
    (["l", "rubygems", "a", "1"], "a-1.gem", .file [65] .data), ([], "y", .directory),
    (["y"], "a-1.gem", .file [66] .data)]

def shelf : Repository := { emptyRepository with localDir := some ⟨"l"⟩ }

def silent : Repository := { emptyRepository with remote := some "http://r/" }

/-- What a fetch yields, and what stands at a place before and after it. -/
def fetchedAt (r : Repository) (dir : Path) (loc : Location) :
    Except Fault Path × Option Entry × Option Entry :=
  match r.fetch packageA dir [] shelves with
  | (x, m) => (x, shelves.disk.get? loc, m.disk.get? loc)

theorem fetch_of_fetchedAt {loc : Location} {x : Except Fault Path} {e e' : Option Entry}
    (h : fetchedAt r dir loc = (x, e, e')) : ∃ m', r.fetch packageA dir [] shelves = (x, m') ∧
      shelves.disk.get? loc = e ∧ m'.disk.get? loc = e' := by
  rw [fetchedAt] at h
  obtain ⟨rfl, hrest⟩ := Prod.mk.inj h
  obtain ⟨rfl, rfl⟩ := Prod.mk.inj hrest
  exact ⟨_, rfl, rfl, rfl⟩

/-- The paths whose directories a fetch may make. -/
def OnWay (p : Package) (dir q : Path) : Prop :=
  dir.Upward q ∨ (dir / p.archiveName).Upward q

theorem ensureDir_onWay {x : Except Fault Unit} (h : Files.ensureDir dir here c = (x, d)) :
    Clears (OnWay p dir) here c d :=
  ((Files.ensureDir_clears dir).of_eq h).mono fun _ => .inl

/-- The path of the archive leads to no file, but to one once the directories on its way are
made. -/
def Unearths (p : Package) (dir : Path) (here : Location) (d : Disk) : Prop :=
  ¬ d.isFileAt here (dir / p.archiveName) ∧ ∃ c c', Files.ensureDir dir here d = (.ok (), c) ∧
    Files.ensureParent (dir / p.archiveName) here c = (.ok (), c') ∧
    c'.isFileAt here (dir / p.archiveName)

/-- Something was put at the place of an archive, where nothing stood unless an archive came to
light there. Elsewhere directories were made on the way, and nothing else has changed. -/
structure Arrived (p : Package) (dir : Path) (here : Location) (c d : Disk) (place : Location) :
    Prop where
  leads : d.locate here (dir / p.archiveName) = .ok place
  fresh : c.get? place = none ∨ Unearths p dir here c
  others : ∀ loc, loc ≠ place → ClearedAt (OnWay p dir) here loc c d

/-- An archive of the local repository ends short, and what was read of it was left at the place of
the archive. `c` is the disk on which the directory has been made. -/
structure CutShort (r : Repository) (p : Package) (dir : Path) (here : Location) (m m' : Machine)
    (c : Disk) (e : OsError) (place : Location) : Prop extends
    Arrived p dir here m.disk m'.disk place where
  remains : ∃ candidate loc content mode, r.Stocks p here c candidate ∧
    c.locate here candidate = .ok loc ∧ c.get? loc = some (.file content mode) ∧
    Access.EndsShort content mode e ∧ loc ≠ place ∧
    m'.disk.get? place = some (.file (content.take Access.maxFile) mode.mended)
  requests : m'.requests = m.requests

theorem Arrived.toExtends {place : Location} (h : Arrived p dir here c d place)
    (hno : ¬ Unearths p dir here c) : c.Extends d := by
  intro loc e he
  by_cases hloc : loc = place
  · subst hloc
    rw [h.fresh.resolve_right hno] at he
    cases he
  · rcases h.others loc hloc with hsame | ⟨hnone, -⟩
    · rw [hsame, he]
    · rw [hnone] at he
      cases he

section Arrival
variable {candidate : Path} {c' : Disk} {e : Entry} {place : Location}
variable (habsent : ¬ m.disk.isFileAt here (dir / p.archiveName))
variable (hmade : Files.ensureDir dir here m.disk = (.ok (), c))
variable (hparent : Files.ensureParent (dir / p.archiveName) here c = (.ok (), c'))
include hmade hparent

theorem clears_of_ensure : Clears (OnWay p dir) here c c' ∧
    Clears (OnWay p dir) here m.disk c' := by
  have hc' : Clears (OnWay p dir) here c c' :=
    ((Files.ensureParent_clears _).of_eq hparent).mono fun _ => .inr
  exact ⟨hc', trans_of _ (ensureDir_onWay hmade) hc'⟩

include habsent

theorem arrived_of_lands (hlands : Access.Lands here (dir / p.archiveName) e c' d place) :
    Arrived p dir here m.disk d place := by
  obtain ⟨-, hclears⟩ := clears_of_ensure hmade hparent
  refine ⟨hlands.leads, ?_, fun loc hne =>
    (hclears loc).of_grows hlands.grows (hlands.others loc hne)⟩
  rcases hlands.fresh with hnone | hfile
  · rw [Option.eq_none_iff_forall_ne_some] at hnone ⊢
    exact .inl fun f hf => hnone f (hclears.toExtends _ f hf)
  · exact .inr ⟨habsent, c, c', hmade, hparent, hfile⟩

end Arrival

theorem clears_of_fetch_error (hhere : m.disk.get? here = some .directory)
    (h : r.fetch p dir here m = (.error f, m')) :
    Clears (OnWay p dir) here m.disk m'.disk ∨
      ∃ c e place, Files.ensureDir dir here m.disk = (.ok (), c) ∧
        f = Files.unwritable (dir / p.archiveName) e ∧ r.CutShort p dir here m m' c e place := by
  have hcourse := fetches r p dir here m
  rw [h] at hcourse
  generalize hx : (Except.error f : Except Fault Path) = x at hcourse
  cases hcourse with
  | present => cases hx
  | refused _ hmade _ => exact .inl (ensureDir_onWay hmade)
  | @copied c candidate x _ habsent hmade hstock hcopy hrequests =>
    cases x with
    | ok => cases hx
    | error g =>
      obtain rfl : f = g := Except.error.inj hx
      have hc := (ensureDir_onWay (p := p) hmade).toExtends
      rcases Files.copyFile_clears_of_error (hc _ _ hhere) hcopy with hcleared |
        ⟨c', e, loc, content, mode, place, hparent, hfault, hlocate, hfile, hshort, hne, hlands⟩
      · exact .inl (trans_of _ (ensureDir_onWay hmade) (hcleared.mono fun _ => .inr))
      · right
        have hc' := (clears_of_ensure hmade hparent).1.toExtends
        obtain ⟨loc', content', mode', hl, hfile'⟩ := hstock.found
        obtain rfl := Except.ok.inj ((hc'.grows.locate_file hfile' hl).symm.trans hlocate)
        obtain ⟨rfl, rfl⟩ := Entry.file.inj (Option.some.inj ((hc' _ _ hfile').symm.trans hfile))
        refine ⟨c, e, place, hmade, hfault, ?_, ⟨candidate, loc', content', mode', hstock, hl,
          hfile', hshort, hne, hlands.stands⟩, hrequests⟩
        exact arrived_of_lands habsent hmade hparent hlands
  | missing _ hmade _ _ => exact .inl (ensureDir_onWay hmade)
  | unanswered _ hmade _ _ _ hdisk _ => exact .inl (hdisk ▸ ensureDir_onWay hmade)
  | @downloaded c _ _ x _ _ hmade _ _ _ hkept _ =>
    cases x with
    | error g => exact .inl (keepDownload_eq_error hkept ▸ ensureDir_onWay hmade)
    | ok => cases hx

/-- A fetch that fails leaves every file of the disk as it was and brings no new one: it has made
directories at most, on the way to the archive. It is otherwise only where the archive of the local
repository ends short, which leaves the part that was read at the place of the archive. -/
theorem fetch_error_clears (hhere : m.disk.get? here = some .directory)
    (h : r.fetch p dir here m = (.error f, m')) :
    (∀ loc, m'.disk.file? loc = m.disk.file? loc) ∧ Clears (OnWay p dir) here m.disk m'.disk ∨
      ∃ c e place, Files.ensureDir dir here m.disk = (.ok (), c) ∧
        f = Files.unwritable (dir / p.archiveName) e ∧ r.CutShort p dir here m m' c e place := by
  refine (clears_of_fetch_error hhere h).imp_left fun hclears => ⟨fun loc => ?_, hclears⟩
  exact (hclears.sparedAt loc).file?_eq

/-- A request that fails leaves the directory that was made for the archive, and nothing in it. -/
theorem fetch_error_clears_sample : ∃ m',
    silent.fetch packageA ⟨"t"⟩ [] shelves = (.error (.io "offline"), m') ∧
      m'.requests = ["http://r/rubygems/a/1/a-1.gem"] ∧ m'.disk.get? ["t"] = some .directory ∧
      ∀ loc, m'.disk.file? loc = shelves.disk.file? loc := by
  have hx : fetchedAt silent ⟨"t"⟩ ["t"] = (.error (.io "offline"), none, some .directory) := by
    decide +kernel
  have hrequests : (silent.fetch packageA ⟨"t"⟩ [] shelves).2.requests =
      ["http://r/rubygems/a/1/a-1.gem"] := by decide +kernel
  obtain ⟨m', hfetch, -, hdir⟩ := fetch_of_fetchedAt hx
  rw [hfetch] at hrequests
  refine ⟨m', hfetch, hrequests, hdir, ?_⟩
  rcases fetch_error_clears (get?_root _) hfetch with ⟨hfiles, -⟩ | ⟨_, _, _, -, hfault, -⟩
  · exact hfiles
  · cases hfault

/-- A local repository whose archive cannot be read: a link to the memory of the program. -/
def brokenShelves : Machine where
  disk := [([], "l", .directory), (["l"], "rubygems", .directory),
    (["l", "rubygems"], "a", .directory), (["l", "rubygems", "a"], "1", .directory),
    (["l", "rubygems", "a", "1"], "a-1.gem", .link ⟨"/proc/self/mem"⟩)].foldl
      (fun d e => d.put e.1 e.2.1 e.2.2) .empty

/-- A copy that was cut short leaves an empty archive, which the next fetch takes as it is. -/
theorem cutShort_sample :
    (shelf.fetch packageA ⟨"t"⟩ [] brokenShelves).1 =
        .error (.fileUnwritable "t/a-1.gem" "Input/output error (os error 5)") ∧
      brokenShelves.disk.file? ["t", "a-1.gem"] = none ∧
      (shelf.fetch packageA ⟨"t"⟩ [] brokenShelves).2.disk.file? ["t", "a-1.gem"] =
        some ([], .data) ∧
      (shelf.fetch packageA ⟨"t"⟩ [] (shelf.fetch packageA ⟨"t"⟩ [] brokenShelves).2).1 =
        .ok ⟨"t/a-1.gem"⟩ := by
  decide +kernel

/-- An archive that was not there has been put at a place, from the local repository or else by the
one request that was made. `c` is the disk on which its directory has been made, and where each
file is found as before. -/
structure Delivers (r : Repository) (p : Package) (dir : Path) (here : Location) (m m' : Machine)
    (c : Disk) (place : Location) : Prop extends Arrived p dir here m.disk m'.disk place where
  found : ∀ q content mode, m.disk.at? here q = some (.file content mode) →
    c.at? here q = some (.file content mode)
  copied : ∀ candidate loc content mode, r.Stocks p here c candidate →
    c.locate here candidate = .ok loc → c.get? loc = some (.file content mode) →
      m'.requests = m.requests ∧ (place = loc → Unearths p dir here m.disk) ∧
        (place ≠ loc → Access.Whole content mode) ∧
        m'.disk.get? place = some (.file (if place = loc then [] else content) mode.mended)
  downloaded : (∀ candidate, ¬ r.Stocks p here c candidate) → ∃ remote bytes,
    r.remote = some remote ∧ r.transport.answer m.requests (address remote p) = .ok bytes ∧
      m'.requests = m.requests ++ [address remote p] ∧
      m'.disk.get? place = some (.file bytes .data)

section Delivery
variable (hhere : m.disk.get? here = some .directory)
variable (habsent : ¬ m.disk.isFileAt here (dir / p.archiveName))
variable (hmade : Files.ensureDir dir here m.disk = (.ok (), c))
include hhere hmade

include habsent in
theorem delivers_of_copy {candidate : Path} (hstock : r.Stocks p here c candidate)
    (hcopy : Files.copyFile candidate (dir / p.archiveName) here c = (.ok (), m'.disk))
    (hrequests : m'.requests = m.requests) : ∃ place, r.Delivers p dir here m m' c place := by
  obtain ⟨⟨⟩, c', hparent, hcopy⟩ := bind_eq_ok_iff.1 hcopy
  rw [mapError_eq_ok_iff] at hcopy
  obtain ⟨hc', hclears⟩ := clears_of_ensure hmade hparent
  obtain ⟨loc, content, mode, hlocate, hfile⟩ := hstock.found
  have hfile' := hc'.toExtends _ _ hfile
  -- the candidate is read after the target was opened, which empties it where they are one file
  obtain ⟨place, hlands, hwhole⟩ := Access.copyFile_eq_ok (hclears.toExtends _ _ hhere)
    (hc'.toExtends.grows.locate_file hfile hlocate) hfile' hcopy
  refine ⟨place, arrived_of_lands habsent hmade hparent hlands,
    fun _ _ _ => (ensureDir_onWay (p := p) hmade).at?_file, ?_,
    fun hno => absurd hstock (hno candidate)⟩
  intro candidate' loc' content' mode' hstock' hlocate' hheld
  obtain rfl := hstock.unique hstock'
  obtain rfl := Except.ok.inj (hlocate.symm.trans hlocate')
  obtain ⟨rfl, rfl⟩ := Entry.file.inj (Option.some.inj (hfile.symm.trans hheld))
  refine ⟨hrequests, ?_, hwhole, hlands.stands⟩
  rintro rfl
  rcases hlands.fresh with hnone | hthere
  · simp [hnone] at hfile'
  · exact ⟨habsent, c, c', hmade, hparent, hthere⟩

theorem delivers_of_download {remote : String} {bytes : Bytes}
    (hstock : ∀ candidate, ¬ r.Stocks p here c candidate) (hremote : r.remote = some remote)
    (hanswer : r.transport.answer m.requests (address remote p) = .ok bytes)
    (hkept : keepDownload bytes (dir / p.archiveName) here c = (.ok (), m'.disk))
    (hrequests : m'.requests = m.requests ++ [address remote p]) :
    ∃ place, r.Delivers p dir here m m' c place := by
  have hclears : Clears (OnWay p dir) here m.disk c := ensureDir_onWay hmade
  obtain ⟨place, hleads, hnone, hput, hothers⟩ :=
    keepDownload_places (hclears.toExtends _ _ hhere) (endsInSlash_archive dir p) hkept
  refine ⟨place, ⟨hleads, .inl ?_, fun loc hne => ?_⟩, fun _ _ _ => hclears.at?_file,
    fun candidate _ _ _ h => absurd h (hstock candidate), fun _ => ?_⟩
  · rw [Option.eq_none_iff_forall_ne_some] at hnone ⊢
    exact fun e he => hnone e (hclears.toExtends _ e he)
  · exact (hclears loc).of_grows ((keepDownload_grows _ _).of_eq hkept) (hothers loc hne)
  · exact ⟨remote, bytes, hremote, hanswer, hrequests, hput⟩

end Delivery

theorem Delivers.isFileAt {place : Location} (h : r.Delivers p dir here m m' c place) :
    m'.disk.isFileAt here (dir / p.archiveName) := by
  have hleads := locate_eq_ok_iff.1 h.leads
  by_cases hstock : ∃ candidate, r.Stocks p here c candidate
  · obtain ⟨candidate, hstock⟩ := hstock
    obtain ⟨loc, content, mode, hl, hfile⟩ := hstock.found
    obtain ⟨-, -, -, hput⟩ := h.copied candidate loc content mode hstock hl hfile
    exact isFileAt_iff.2 ⟨place, _, _, hleads, hput⟩
  · obtain ⟨remote, bytes, -, -, -, hput⟩ := h.downloaded (not_exists.1 hstock)
    exact isFileAt_iff.2 ⟨place, bytes, .data, hleads, hput⟩

theorem delivers_of_fetch (hhere : m.disk.get? here = some .directory)
    (habsent : ¬ m.disk.isFileAt here (dir / p.archiveName))
    (h : r.fetch p dir here m = (.ok q, m')) :
    q = dir / p.archiveName ∧ ∃ c place, Files.ensureDir dir here m.disk = (.ok (), c) ∧
      r.Delivers p dir here m m' c place := by
  have hcourse := fetches r p dir here m
  rw [h] at hcourse
  generalize hx : (Except.ok q : Except Fault Path) = x at hcourse
  cases hcourse with
  | present hthere _ => exact absurd hthere habsent
  | refused => cases hx
  | @copied c _ x _ _ hmade hstock hcopy hrequests =>
    cases x with
    | error => cases hx
    | ok =>
      obtain ⟨place, hdelivers⟩ := delivers_of_copy hhere habsent hmade hstock hcopy hrequests
      exact ⟨Except.ok.inj hx, c, place, hmade, hdelivers⟩
  | missing => cases hx
  | unanswered => cases hx
  | @downloaded c _ _ x _ _ hmade hstock hremote hanswer hkept hrequests =>
    cases x with
    | error => cases hx
    | ok =>
      obtain ⟨place, hdelivers⟩ :=
        delivers_of_download hhere hmade hstock hremote hanswer hkept hrequests
      exact ⟨Except.ok.inj hx, c, place, hmade, hdelivers⟩

theorem fetch_of_isFileAt (h : m.disk.isFileAt here (dir / p.archiveName)) :
    ∃ m', r.fetch p dir here m = (.ok (dir / p.archiveName), m') ∧ m.OnlyLogged m' := by
  have hthere : (liftM (Access.isFile (dir / p.archiveName) : Files Bool) : Work Bool) here m =
      (.ok (m.disk.isFileAt here (dir / p.archiveName)), m) := rfl
  rw [fetch, bind_apply_ok hthere, if_pos h]
  exact ⟨_, rfl, rfl, rfl⟩

theorem fetch_extends (r : Repository) (hhere : m.disk.get? here = some .directory)
    (hno : ¬ Unearths p dir here m.disk) : m.disk.Extends (r.fetch p dir here m).2.disk := by
  obtain ⟨f, m', h⟩ | ⟨q, m', h⟩ := (r.fetch p dir).error_or_ok here m
  · rw [h]
    rcases clears_of_fetch_error hhere h with hclears | ⟨_, _, _, -, -, hcut⟩
    · exact hclears.toExtends
    · exact hcut.toExtends hno
  · rw [h]
    by_cases hthere : m.disk.isFileAt here (dir / p.archiveName)
    · obtain ⟨m₁, hfetch, hdisk, -⟩ := fetch_of_isFileAt (r := r) hthere
      obtain ⟨-, rfl⟩ := Prod.mk.inj (hfetch.symm.trans h)
      rw [hdisk]
      exact refl_of Extends m.disk
    · obtain ⟨-, c, place, -, hdelivers⟩ := delivers_of_fetch hhere hthere h
      exact hdelivers.toExtends hno

theorem fetch_missing (habsent : ¬ m.disk.isFileAt here (dir / p.archiveName))
    (hmade : Files.ensureDir dir here m.disk = (.ok (), c))
    (hstock : ∀ candidate, ¬ r.Stocks p here c candidate) (hremote : r.remote = none) :
    r.fetch p dir here m =
      (.error (.archiveMissing p.name p.version (dir / p.archiveName).text),
        { m with disk := c }) := by
  have hcourse := fetches r p dir here m
  generalize hx : (r.fetch p dir here m).1 = x at hcourse
  generalize hm : (r.fetch p dir here m).2 = m' at hcourse
  refine Prod.ext (hx.trans ?_) (hm.trans ?_)
  all_goals
    cases hcourse with
    | present hthere _ => exact absurd hthere habsent
    | refused _ hrefused _ =>
      exact absurd hrefused (ne_error_of_ok hmade)
    | copied _ hmade' hstock' _ _ =>
      obtain ⟨-, rfl⟩ := ok_inj (hmade.symm.trans hmade')
      exact absurd hstock' (hstock _)
    | missing _ hmade' _ _ =>
      obtain ⟨-, rfl⟩ := ok_inj (hmade.symm.trans hmade')
      rfl
    | unanswered _ _ _ hremote' _ _ _ => simp [hremote] at hremote'
    | downloaded _ _ _ hremote' _ _ _ => simp [hremote] at hremote'

/-- The archive comes from the first source that has it: it is taken as it is where it stands, else
copied from the local repository, else downloaded by one request, else reported as missing. Beside
it only directories on its way are made, and it is not got again. -/
theorem fetch_takes_first (hhere : m.disk.get? here = some .directory) :
    (∀ q m', r.fetch p dir here m = (.ok q, m') →
      q = dir / p.archiveName ∧ m'.disk.isFileAt here q ∧
      (m.disk.isFileAt here q → m.OnlyLogged m') ∧
      (¬ m.disk.isFileAt here q → ∃ c place, Files.ensureDir dir here m.disk = (.ok (), c) ∧
        r.Delivers p dir here m m' c place) ∧
      ∃ m'', r.fetch p dir here m' = (.ok q, m'') ∧ m'.OnlyLogged m'') ∧
    (∀ c, ¬ m.disk.isFileAt here (dir / p.archiveName) →
      Files.ensureDir dir here m.disk = (.ok (), c) → (∀ candidate, ¬ r.Stocks p here c candidate) →
      r.remote = none → r.fetch p dir here m =
        (.error (.archiveMissing p.name p.version (dir / p.archiveName).text),
          { m with disk := c })) := by
  constructor
  · intro q m' h
    by_cases hthere : m.disk.isFileAt here (dir / p.archiveName)
    · obtain ⟨m₁, hfetch, hlogged⟩ := fetch_of_isFileAt (r := r) hthere
      obtain ⟨hq, rfl⟩ := Prod.mk.inj (hfetch.symm.trans h)
      obtain rfl := Except.ok.inj hq
      have hthere' : m₁.disk.isFileAt here (dir / p.archiveName) := hlogged.1 ▸ hthere
      exact ⟨rfl, hthere', fun _ => hlogged, fun habsent => absurd hthere habsent,
        fetch_of_isFileAt hthere'⟩
    · obtain ⟨rfl, c, place, hmade, hdelivers⟩ := delivers_of_fetch hhere hthere h
      exact ⟨rfl, hdelivers.isFileAt, fun h => absurd h hthere,
        fun _ => ⟨c, place, hmade, hdelivers⟩, fetch_of_isFileAt hdelivers.isFileAt⟩
  · intro c habsent hmade hstock hremote
    exact fetch_missing habsent hmade hstock hremote

theorem fetch_takes_first_sample : ∃ m' c place,
    shelf.fetch packageA ⟨"t"⟩ [] shelves = (.ok ⟨"t/a-1.gem"⟩, m') ∧
      shelf.Delivers packageA ⟨"t"⟩ [] shelves m' c place ∧
      m'.disk.get? ["t", "a-1.gem"] = some (.file [65] .data) := by
  have hx : fetchedAt shelf ⟨"t"⟩ ["t", "a-1.gem"] =
      (.ok ⟨"t/a-1.gem"⟩, none, some (.file [65] .data)) := by decide +kernel
  obtain ⟨m', hfetch, -, hfile⟩ := fetch_of_fetchedAt hx
  obtain ⟨-, -, -, hdelivers, -⟩ := (fetch_takes_first (get?_root _)).1 _ m' hfetch
  obtain ⟨c, place, -, hdelivers⟩ := hdelivers (by decide +kernel)
  exact ⟨m', c, place, hfetch, hdelivers, hfile⟩

/-- An archive that the path leads to only once a directory was made is overwritten: by the copy in
the local repository, or by nothing where it is that copy itself. -/
theorem unearthed_samples :
    (∃ m', shelf.fetch packageA ⟨"x/../y"⟩ [] shelves = (.ok ⟨"x/../y/a-1.gem"⟩, m') ∧
      shelves.disk.get? ["y", "a-1.gem"] = some (.file [66] .data) ∧
      m'.disk.get? ["y", "a-1.gem"] = some (.file [65] .data)) ∧
    ∃ m', shelf.fetch packageA ⟨"x/../l/rubygems/a/1"⟩ [] shelves =
        (.ok ⟨"x/../l/rubygems/a/1/a-1.gem"⟩, m') ∧
      shelves.disk.get? ["l", "rubygems", "a", "1", "a-1.gem"] = some (.file [65] .data) ∧
      m'.disk.get? ["l", "rubygems", "a", "1", "a-1.gem"] = some (.file [] .data) := by
  constructor
  · exact fetch_of_fetchedAt (by decide +kernel)
  · exact fetch_of_fetchedAt (by decide +kernel)

end Repository

end Staging

end GemStaging
