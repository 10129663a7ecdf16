import SchoolProjects.FileWalk.Walk
import Mathlib.Data.Set.Card

/-! The counts of `main.c` of the fourth homework: after the walk each counter holds the
number of the files of its kind, a file that is found below the path counted once. -/

namespace SchoolProjects.FileWalk

open Text

/-! ### The program -/

/-- The counters; `nslink` is for symbolic links. -/
structure Counts where
  nreg : ℕ
  ndir : ℕ
  nblk : ℕ
  nchr : ℕ
  nfifo : ℕ
  nslink : ℕ
  nsock : ℕ
  deriving DecidableEq

def Counts.zero : Counts := ⟨0, 0, 0, 0, 0, 0, 0⟩

/-- The messages of `err_ret` are left out; `err_dump` ends the program. -/
def myfunc : Myfunc Counts := fun c s =>
  match c.type with
  | .F =>
    match c.kind with
    | some .reg => some (0, { s with nreg := s.nreg + 1 })
    | some .blk => some (0, { s with nblk := s.nblk + 1 })
    | some .chr => some (0, { s with nchr := s.nchr + 1 })
    | some .fifo => some (0, { s with nfifo := s.nfifo + 1 })
    | some .lnk => some (0, { s with nslink := s.nslink + 1 })
    | some .sock => some (0, { s with nsock := s.nsock + 1 })
    | some .dir => none
    | none => none
  | .D => some (0, { s with ndir := s.ndir + 1 })
  | .DNR => some (0, s)
  | .NS => some (0, s)

/-- What the percentages are of. -/
def Counts.ntot (s : Counts) : ℕ :=
  let ntot := s.nreg + s.ndir + s.nblk + s.nchr + s.nfifo + s.nslink + s.nsock
  if ntot = 0 then 1 else ntot

/-- The value for `exit` and the counters, for a call with one path. -/
def main (fs : FileSystem) (memory : ℕ → UInt8) (fuel size : ℕ) (pathname : Text) :
    Option (ℤ × Counts) :=
  (myftw fs memory myfunc fuel size pathname Counts.zero).map fun r => (r.1, r.2.state)

/-! ### The files below a path -/

/-- A file is reached by names of directories that can be read. -/
inductive Below (fs : FileSystem) : Text → Text → Prop
  | refl (path : Text) : Below fs path path
  | entry {path file d_name : Text} {names : List Text} (hdir : fs.lstat path = some .dir)
      (hopen : fs.opendir (path ++ [47]) = some names) (hmem : d_name ∈ names)
      (hdot : ¬ IsDot d_name) (hbelow : Below fs (path ++ 47 :: d_name) file) :
      Below fs path file

/-- A directory lists every name once, and no name has a slash in it. -/
def FileSystem.Listed (fs : FileSystem) : Prop :=
  ∀ path names, fs.opendir path = some names → names.Nodup ∧ ∀ d_name ∈ names, 47 ∉ d_name

/-- The counter for a kind. -/
def Counts.count (s : Counts) : Kind → ℕ
  | .reg => s.nreg
  | .dir => s.ndir
  | .blk => s.nblk
  | .chr => s.nchr
  | .fifo => s.nfifo
  | .lnk => s.nslink
  | .sock => s.nsock

/-! ### The calls name the files -/

section Calls

variable {fs : FileSystem} {depth : ℕ} {path p : Text} {cs : List Call}

/-- The paths of the calls, but for the second call for a directory that cannot be read. -/
def files (cs : List Call) : List Text :=
  (cs.filter fun c => c.type ≠ .DNR).map Call.pathname

theorem mapM_map_getD {f : Text → Option (List Call)} {names : List Text} {lists : List (List Call)}
    (h : names.mapM f = some lists) :
    (∀ d_name ∈ names, f d_name = some ((f d_name).getD [])) ∧
      lists = names.map fun d_name => (f d_name).getD [] := by
  induction names generalizing lists with
  | nil => exact ⟨fun d hd => absurd hd List.not_mem_nil, (Option.some.inj h).symm⟩
  | cons d_name names ih =>
    rw [List.mapM_cons] at h
    obtain ⟨below, hbelow, h⟩ := Option.bind_eq_some_iff.mp h
    obtain ⟨lists', hlists, h⟩ := Option.bind_eq_some_iff.mp h
    obtain rfl : below :: lists' = lists := Option.some.inj h
    obtain ⟨hall, rfl⟩ := ih hlists
    exact ⟨List.forall_mem_cons.mpr ⟨by rw [hbelow]; rfl, hall⟩, by rw [List.map_cons, hbelow]; rfl⟩

/-- The calls for one file are of four shapes; `below` gives those for a name in it. -/
theorem visits_cases (h : visits fs (depth + 1) path = some cs) :
    (fs.lstat path = none ∧ cs = [⟨path, none, .NS⟩]) ∨
    (∃ kind, kind ≠ .dir ∧ fs.lstat path = some kind ∧ cs = [⟨path, some kind, .F⟩]) ∨
    (fs.lstat path = some .dir ∧ fs.opendir (path ++ [47]) = none ∧
      cs = [⟨path, some .dir, .D⟩, ⟨path ++ [47], some .dir, .DNR⟩]) ∨
    (fs.lstat path = some .dir ∧ ∃ (names : List Text) (below : Text → List Call),
      fs.opendir (path ++ [47]) = some names ∧
      (∀ d_name ∈ names.filter fun d_name => ¬ IsDot d_name,
        visits fs depth (path ++ 47 :: d_name) = some (below d_name)) ∧
      cs = ⟨path, some .dir, .D⟩ :: (names.filter fun d_name => ¬ IsDot d_name).flatMap below) := by
  rw [visits] at h
  cases hstat : fs.lstat path with
  | none =>
    rw [hstat] at h
    exact Or.inl ⟨rfl, (Option.some.inj h).symm⟩
  | some kind =>
    rw [hstat] at h
    dsimp only at h
    by_cases hkind : kind ≠ .dir
    · rw [if_pos hkind] at h
      exact Or.inr (Or.inl ⟨kind, hkind, rfl, (Option.some.inj h).symm⟩)
    · rw [if_neg hkind] at h
      obtain rfl : kind = .dir := not_not.mp hkind
      obtain ⟨cs, hcs, rfl⟩ := Option.map_eq_some_iff.mp h
      rw [inside] at hcs
      cases hopen : fs.opendir (path ++ [47]) with
      | none =>
        rw [hopen] at hcs
        obtain rfl := Option.some.inj hcs
        exact Or.inr (Or.inr (Or.inl ⟨rfl, rfl, rfl⟩))
      | some names =>
        rw [hopen] at hcs
        obtain ⟨lists, hlists, rfl⟩ := Option.map_eq_some_iff.mp hcs
        obtain ⟨hall, rfl⟩ := mapM_map_getD hlists
        exact Or.inr (Or.inr (Or.inr ⟨rfl, names, _, rfl, hall, rfl⟩))

/-- What a call says about its file. -/
def Call.Sound (fs : FileSystem) (c : Call) : Prop :=
  match c.type with
  | .F => ∃ kind, kind ≠ .dir ∧ c.kind = some kind ∧ fs.lstat c.pathname = c.kind
  | .D => c.kind = some .dir ∧ fs.lstat c.pathname = c.kind
  | .DNR => True
  | .NS => c.kind = none ∧ fs.lstat c.pathname = c.kind

theorem Call.Sound.lstat_eq {c : Call} (hc : c.Sound fs) (hdnr : c.type ≠ .DNR) :
    fs.lstat c.pathname = c.kind := by
  unfold Call.Sound at hc
  split at hc
  · exact hc.choose_spec.2.2
  · exact hc.2
  · contradiction
  · exact hc.2

theorem visits_sound (h : visits fs depth path = some cs) : ∀ c ∈ cs, c.Sound fs := by
  induction depth generalizing path cs with
  | zero => cases h
  | succ depth ih =>
    rcases visits_cases h with ⟨hstat, rfl⟩ | ⟨kind, hkind, hstat, rfl⟩ | ⟨hstat, -, rfl⟩ |
      ⟨hstat, names, below, -, hbelow, rfl⟩
    · simpa [Call.Sound] using hstat
    · simpa [Call.Sound] using ⟨hkind, hstat⟩
    · simpa [Call.Sound] using hstat
    · refine List.forall_mem_cons.mpr ⟨⟨rfl, hstat⟩, fun c hc => ?_⟩
      obtain ⟨d_name, hd, hc⟩ := List.mem_flatMap.mp hc
      exact ih (hbelow d_name hd) c hc

theorem files_cons_D (names : List Text) (below : Text → List Call) :
    files (⟨path, some .dir, .D⟩ :: names.flatMap below) =
      path :: names.flatMap fun d_name => files (below d_name) := by
  rw [files, List.filter_cons_of_pos rfl, List.map_cons, List.filter_flatMap,
    List.map_flatMap]
  rfl

theorem below_of_leaf
    (hleaf : fs.lstat path = some .dir → fs.opendir (path ++ [47]) = none) :
    Below fs path p ↔ p = path := by
  constructor
  · intro hp
    cases hp with
    | refl => rfl
    | entry hdir hopen => exact absurd (hleaf hdir) (by rw [hopen]; exact Option.some_ne_none _)
  · rintro rfl
    exact Below.refl p

/-- The calls are for the files below the path. -/
theorem mem_files (h : visits fs depth path = some cs) : p ∈ files cs ↔ Below fs path p := by
  induction depth generalizing path cs with
  | zero => cases h
  | succ depth ih =>
    rcases visits_cases h with ⟨hstat, rfl⟩ | ⟨kind, hkind, hstat, rfl⟩ | ⟨-, hopen, rfl⟩ |
      ⟨hstat, names, below, hopen, hbelow, rfl⟩
    · rw [below_of_leaf (by rw [hstat]; intro hdir; cases hdir)]
      exact List.mem_singleton
    · rw [below_of_leaf (by rw [hstat]; intro hdir; exact absurd (Option.some.inj hdir) hkind)]
      exact List.mem_singleton
    · rw [below_of_leaf fun _ => hopen]
      exact List.mem_singleton
    · rw [files_cons_D, List.mem_cons, List.mem_flatMap]
      constructor
      · rintro (rfl | ⟨d_name, hd, hp⟩)
        · exact Below.refl p
        · have hd' := List.mem_filter.mp hd
          exact Below.entry hstat hopen hd'.1 (by simpa using hd'.2) ((ih (hbelow d_name hd)).mp hp)
      · intro hp
        cases hp with
        | refl => exact Or.inl rfl
        | @entry _ _ d_name _ hdir hopen' hmem hdot hp =>
          obtain rfl := Option.some.inj (hopen.symm.trans hopen')
          have hd : d_name ∈ names.filter fun d_name => ¬ IsDot d_name :=
            List.mem_filter.mpr ⟨hmem, by simpa using hdot⟩
          exact Or.inr ⟨d_name, hd, (ih (hbelow d_name hd)).mpr hp⟩

theorem Below.starts (h : Below fs path p) : ∃ rest, p = path ++ rest ∧
    (rest = [] ∨ ∃ rest', rest = 47 :: rest') := by
  induction h with
  | refl path => exact ⟨[], (List.append_nil path).symm, Or.inl rfl⟩
  | @entry path file d_name names hdir hopen hmem hdot hbelow ih =>
    obtain ⟨rest, rfl, -⟩ := ih
    exact ⟨47 :: (d_name ++ rest), by simp, Or.inr ⟨_, rfl⟩⟩

/-- A name ends at the next slash. -/
theorem takeWhile_name {d_name rest : Text} (hslash : 47 ∉ d_name)
    (hrest : rest = [] ∨ ∃ rest', rest = 47 :: rest') :
    (d_name ++ rest).takeWhile (· ≠ 47) = d_name := by
  have hname : ∀ b ∈ d_name, decide (b ≠ 47) = true := fun b hb =>
    decide_eq_true fun h => hslash (h ▸ hb)
  rw [List.takeWhile_append_of_pos hname]
  obtain rfl | ⟨rest', rfl⟩ := hrest
  · exact List.append_nil d_name
  · exact List.append_nil d_name

/-- What is below two names of a directory is different. -/
theorem below_disjoint {d_name d_name' : Text} (hslash : 47 ∉ d_name) (hslash' : 47 ∉ d_name')
    (hp : Below fs (path ++ 47 :: d_name) p) (hp' : Below fs (path ++ 47 :: d_name') p) :
    d_name = d_name' := by
  obtain ⟨rest, rfl, hrest⟩ := hp.starts
  obtain ⟨rest', heq, hrest'⟩ := hp'.starts
  rw [List.append_assoc, List.append_assoc, List.append_cancel_left_eq, List.cons_append,
    List.cons_append, List.cons.injEq] at heq
  rw [← takeWhile_name hslash hrest, heq.2, takeWhile_name hslash' hrest']

/-- No file comes twice. -/
theorem files_nodup (hfs : fs.Listed) (h : visits fs depth path = some cs) : (files cs).Nodup := by
  induction depth generalizing path cs with
  | zero => cases h
  | succ depth ih =>
    rcases visits_cases h with ⟨-, rfl⟩ | ⟨kind, -, -, rfl⟩ | ⟨-, -, rfl⟩ |
      ⟨-, names, below, hopen, hbelow, rfl⟩
    · exact List.nodup_singleton path
    · exact List.nodup_singleton path
    · exact List.nodup_singleton path
    · obtain ⟨hnodup, hslash⟩ := hfs _ _ hopen
      rw [files_cons_D, List.nodup_cons, List.nodup_flatMap]
      refine ⟨fun hmem => ?_, fun d_name hd => ih (hbelow d_name hd), ?_⟩
      · obtain ⟨d_name, hd, hp⟩ := List.mem_flatMap.mp hmem
        obtain ⟨rest, heq, -⟩ := ((mem_files (hbelow d_name hd)).mp hp).starts
        have hlen := congrArg List.length heq
        simp only [List.length_append, List.length_cons] at hlen
        omega
      · refine (hnodup.filter _).imp_of_mem fun {d_name d_name'} hd hd' hne => ?_
        rw [Function.onFun, List.disjoint_left]
        intro p hp hp'
        exact hne (below_disjoint (hslash _ (List.mem_filter.mp hd).1)
          (hslash _ (List.mem_filter.mp hd').1) ((mem_files (hbelow _ hd)).mp hp)
          ((mem_files (hbelow _ hd')).mp hp'))

end Calls

/-! ### The counters -/

section Counters

variable {fs : FileSystem} {depth : ℕ} {path : Text} {cs : List Call}

/-- The sum of the counters. -/
def Counts.total (s : Counts) : ℕ :=
  s.nreg + s.ndir + s.nblk + s.nchr + s.nfifo + s.nslink + s.nsock

theorem Counts.ntot_eq (s : Counts) : s.ntot = max 1 s.total := by
  unfold Counts.ntot Counts.total
  dsimp only
  split_ifs <;> omega

/-- One call adds one to the counter of its kind. -/
theorem myfunc_sound {c : Call} (hc : c.Sound fs) (s : Counts) : ∃ s', myfunc c s = some (0, s') ∧
    (∀ kind, s'.count kind =
      s.count kind + if c.type ≠ .DNR ∧ c.kind = some kind then 1 else 0) ∧
    s'.total = s.total + if c.type ≠ .DNR ∧ c.kind.isSome then 1 else 0 := by
  obtain ⟨pathname, kind, type⟩ := c
  cases type with
  | F =>
    obtain ⟨kind, hkind, rfl, -⟩ := hc
    cases kind with
    | dir => exact absurd rfl hkind
    | _ => exact ⟨_, rfl, fun kind => by cases kind <;> rfl, by grind [Counts.total]⟩
  | D =>
    obtain ⟨rfl, -⟩ := hc
    exact ⟨_, rfl, fun kind => by cases kind <;> rfl, by grind [Counts.total]⟩
  | DNR => exact ⟨s, rfl, fun kind => by simp, by simp⟩
  | NS =>
    obtain ⟨rfl, -⟩ := hc
    exact ⟨s, rfl, fun kind => by simp, by simp⟩

/-- The calls end with 0, and the counters have grown by the calls of their kinds. -/
theorem calls_myfunc (hcs : ∀ c ∈ cs, c.Sound fs) (s : Counts) :
    ∃ s', calls myfunc cs s = some (0, s') ∧
      (∀ kind, s'.count kind =
        s.count kind + cs.countP fun c => c.type ≠ .DNR ∧ c.kind = some kind) ∧
      s'.total = s.total + cs.countP fun c => c.type ≠ .DNR ∧ c.kind.isSome := by
  induction cs generalizing s with
  | nil => exact ⟨s, rfl, fun kind => rfl, rfl⟩
  | cons c cs ih =>
    obtain ⟨hc, hcs⟩ := List.forall_mem_cons.mp hcs
    obtain ⟨s₁, hcall, hcount, htotal⟩ := myfunc_sound hc s
    obtain ⟨s₂, hcalls, hcount', htotal'⟩ := ih hcs s₁
    refine ⟨s₂, ?_, fun kind => ?_, ?_⟩
    · rw [calls, hcall]
      exact hcalls
    · rw [hcount', hcount, List.countP_cons, add_assoc, add_comm (List.countP _ _)]
      simp only [decide_eq_true_eq]
    · rw [htotal', htotal, List.countP_cons, add_assoc, add_comm (List.countP _ _)]
      simp only [decide_eq_true_eq]

/-- The calls for some kinds are as many as the files of these kinds. -/
theorem countP_eq_ncard (hfs : fs.Listed) (h : visits fs depth path = some cs)
    (P : Option Kind → Prop) [DecidablePred P] :
    (cs.countP fun c => c.type ≠ .DNR ∧ P c.kind) =
      {p | Below fs path p ∧ P (fs.lstat p)}.ncard := by
  have hset : {p | Below fs path p ∧ P (fs.lstat p)} =
      ((files cs).filter fun p => P (fs.lstat p)).toFinset := by
    ext p
    simp [mem_files h]
  have hlen : (cs.countP fun c => c.type ≠ .DNR ∧ P c.kind) =
      ((files cs).filter fun p => P (fs.lstat p)).length := by
    rw [files, List.filter_map, List.length_map, List.filter_filter, List.countP_eq_length_filter]
    refine congrArg List.length (List.filter_congr fun c hc => ?_)
    by_cases hdnr : c.type = .DNR
    · simp [hdnr]
    · simp [hdnr, (visits_sound h c hc).lstat_eq hdnr]
  rw [hset, Set.ncard_coe_finset, List.toFinset_card_of_nodup ((files_nodup hfs h).filter _), hlen]

theorem sample_listed : sample.Listed := by
  intro path names h
  obtain rfl := sample_opendir h
  decide

end Counters

end SchoolProjects.FileWalk
