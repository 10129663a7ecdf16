import SchoolProjects.Lib.CString

/-! The walk through a file hierarchy (`main.c` of the fourth homework): `dopath` calls a
function for every file below a path, with the path in a buffer that all calls share and
that grows when a name might not fit. The calls are those of the plain recursion on paths,
in its order and up to the first that does not return 0, and no name is written outside the
buffer. The hierarchy does not change during the walk and `realloc` does not fail. A result
`none` is a write outside the buffer, a path without an end, a call of `err_dump`, or a
hierarchy deeper than the fuel. -/

namespace SchoolProjects.FileWalk

open Text CString

/-! ### Files -/

/-- What `st_mode` says about a file. -/
inductive Kind
  | reg | dir | blk | chr | fifo | lnk | sock
  deriving DecidableEq

/-- The last argument of the function. -/
inductive Ftw
  | F | D | DNR | NS
  deriving DecidableEq

/-- The arguments of one call; without a kind `lstat` has failed. -/
structure Call where
  pathname : Text
  kind : Option Kind
  type : Ftw
  deriving DecidableEq

/-- What `lstat` and `opendir` find; a directory that cannot be read is `none`. -/
structure FileSystem where
  lstat : Text → Option Kind
  opendir : Text → Option (List Text)

/-- `none` is the end of the program. -/
abbrev Myfunc (σ : Type) := Call → σ → Option (ℤ × σ)

/-- `.` and `..`. -/
def IsDot (d_name : Text) : Prop := d_name = ascii "." ∨ d_name = ascii ".."

instance (d_name : Text) : Decidable (IsDot d_name) := inferInstanceAs (Decidable (_ ∨ _))

/-! ### The buffer -/

/-- `fullpath`, `pathlen`, and what the function keeps. -/
structure Walk (σ : Type) where
  fullpath : Text
  pathlen : ℕ
  state : σ

section Buffer

variable {σ : Type} (memory : ℕ → UInt8)

/-- New bytes hold whatever `memory` does. -/
def realloc (buf : Text) (size : ℕ) : Text :=
  buf.take size ++ (List.range (size - buf.length)).map memory

/-- The bytes of `t` from the index `k` on. -/
def Walk.store (w : Walk σ) (k : ℕ) (t : Text) : Option (Walk σ) :=
  if k + t.length ≤ w.fullpath.length then
    some { w with fullpath := w.fullpath.take k ++ (t ++ w.fullpath.drop (k + t.length)) }
  else none

/-- `func(...)`. -/
def Walk.call (w : Walk σ) (func : Myfunc σ) (c : Call) : Option (ℤ × Walk σ) :=
  (func c w.state).map fun r => (r.1, { w with state := r.2 })

/-- `NAME_MAX`. -/
def NAME_MAX : ℕ := 255

/-- The buffer is expanded where a name might not fit. -/
def Walk.expand (w : Walk σ) (n : ℕ) : Walk σ :=
  if w.pathlen < n + NAME_MAX + 2 then
    { w with pathlen := w.pathlen * 2, fullpath := realloc memory w.fullpath (w.pathlen * 2) }
  else w

end Buffer

/-! ### The walk -/

section Source

variable {σ : Type}

/-- The loop over the names of a directory, with the index behind the slash. -/
def entries (dopath : Walk σ → Option (ℤ × Walk σ)) (n : ℕ) :
    List Text → ℤ → Walk σ → Option (ℤ × Walk σ)
  | [], ret, w => some (ret, w)
  | d_name :: names, ret, w =>
    if IsDot d_name then entries dopath n names ret w
    else do
      let w ← w.store n (d_name ++ [0])
      let (ret, w) ← dopath w
      if ret ≠ 0 then return (ret, w) else entries dopath n names ret w

variable (fs : FileSystem) (memory : ℕ → UInt8) (func : Myfunc σ)

/-- `dopath` for a directory, after the first call. -/
def descend (dopath : Walk σ → Option (ℤ × Walk σ)) (kind : Kind) (n : ℕ) (ret : ℤ)
    (w : Walk σ) : Option (ℤ × Walk σ) := do
  let w ← (w.expand memory n).store n [47, 0]
  let fullpath ← stringAt w.fullpath 0
  match fs.opendir fullpath with
  | none => w.call func ⟨fullpath, some kind, .DNR⟩
  | some names =>
    let (ret, w) ← entries dopath (n + 1) names ret w
    let w ← w.store n [0]
    return (ret, w)

def dopath : ℕ → Walk σ → Option (ℤ × Walk σ)
  | 0, _ => none
  | fuel + 1, w => do
    let fullpath ← stringAt w.fullpath 0
    match fs.lstat fullpath with
    | none => w.call func ⟨fullpath, none, .NS⟩
    | some kind =>
      if kind ≠ .dir then w.call func ⟨fullpath, some kind, .F⟩
      else do
        let (ret, w) ← w.call func ⟨fullpath, some kind, .D⟩
        if ret ≠ 0 then return (ret, w)
        else descend fs memory func (dopath fuel) kind fullpath.length ret w

/-- The size of the buffer for a path, where `path_alloc` gives `size`. -/
def bufferSize (size : ℕ) (pathname : Text) : ℕ :=
  if size ≤ pathname.length then pathname.length * 2 else size

def myftw (fuel size : ℕ) (pathname : Text) (state : σ) : Option (ℤ × Walk σ) := do
  let pathlen := bufferSize size pathname
  let w ← Walk.store ⟨realloc memory [] pathlen, pathlen, state⟩ 0 (pathname ++ [0])
  dopath fs memory func fuel w

end Source

/-! ### The plain recursion -/

/-- The calls after the first one for a directory. -/
def inside (fs : FileSystem) (visits : Text → Option (List Call)) (path : Text) :
    Option (List Call) :=
  match fs.opendir (path ++ [47]) with
  | none => some [⟨path ++ [47], some .dir, .DNR⟩]
  | some names =>
    ((names.filter fun d_name => ¬ IsDot d_name).mapM fun d_name =>
      visits (path ++ 47 :: d_name)).map List.flatten

/-- The calls for a file and all below it, up to a depth. -/
def visits (fs : FileSystem) : ℕ → Text → Option (List Call)
  | 0, _ => none
  | depth + 1, path =>
    match fs.lstat path with
    | none => some [⟨path, none, .NS⟩]
    | some kind =>
      if kind ≠ .dir then some [⟨path, some kind, .F⟩]
      else (inside fs (visits fs depth) path).map (List.cons ⟨path, some .dir, .D⟩)

/-- Calls one after the other, up to the first that does not return 0. -/
def calls {σ : Type} (func : Myfunc σ) : List Call → σ → Option (ℤ × σ)
  | [], s => some (0, s)
  | c :: cs, s => do
    let (ret, s) ← func c s
    if ret ≠ 0 then return (ret, s) else calls func cs s

/-- Names are no longer than `NAME_MAX` and have no NUL in them. -/
def FileSystem.Named (fs : FileSystem) : Prop :=
  ∀ path names, fs.opendir path = some names → ∀ d_name ∈ names,
    d_name.length ≤ NAME_MAX ∧ 0 ∉ d_name

/-! ### The buffer on the way -/

section Buffer

variable {σ : Type} {w w' : Walk σ} {path rest : Text}

/-- The buffer starts with a path, and its size is known and not too small to begin with. -/
structure Begins (w : Walk σ) (path : Text) : Prop where
  path_eq : ∃ rest, w.fullpath = path ++ rest
  pathlen_eq : w.pathlen = w.fullpath.length
  large : 256 ≤ w.pathlen

theorem store_eq {n : ℕ} {q t : Text} (hfull : w.fullpath = path ++ (q ++ rest))
    (hn : path.length = n) (hlen : q.length = t.length) :
    w.store n t = some { w with fullpath := path ++ (t ++ rest) } := by
  subst hn
  have hle : path.length + t.length ≤ w.fullpath.length := by
    rw [hfull]
    simp [hlen]
  rw [Walk.store, if_pos hle, hfull, List.take_left, List.drop_append]
  simp [hlen.symm]

theorem Begins.store (h : Begins w path) {t : Text} (hlen : path.length + t.length ≤ w.pathlen) :
    ∃ rest, w.store path.length t = some { w with fullpath := path ++ (t ++ rest) } ∧
      (path ++ (t ++ rest)).length = w.pathlen := by
  obtain ⟨rest, hfull⟩ := h.path_eq
  have hsize := h.pathlen_eq
  rw [hfull, List.length_append] at hsize
  have hrest : rest = rest.take t.length ++ rest.drop t.length := by simp
  rw [hrest] at hfull
  refine ⟨rest.drop t.length, store_eq hfull rfl (by rw [List.length_take]; omega), ?_⟩
  simp only [List.length_append, List.length_drop]
  omega

/-- The path is still in front after the buffer is expanded, and there is room for a name. -/
theorem Begins.expand (h : Begins w path) (hlt : path.length < w.pathlen) (memory : ℕ → UInt8) :
    Begins (w.expand memory path.length) path ∧
      path.length + NAME_MAX + 2 ≤ (w.expand memory path.length).pathlen ∧
      w.pathlen ≤ (w.expand memory path.length).pathlen ∧
      (w.expand memory path.length).state = w.state := by
  obtain ⟨⟨rest, hfull⟩, hsize, hlarge⟩ := h
  unfold Walk.expand NAME_MAX
  split_ifs with hsmall
  · have htake : w.fullpath.take (w.pathlen * 2) = w.fullpath :=
      List.take_of_length_le (by omega)
    refine ⟨⟨⟨rest ++ (List.range (w.pathlen * 2 - w.fullpath.length)).map memory, ?_⟩, ?_, ?_⟩,
      ?_, ?_, rfl⟩
    · change realloc memory w.fullpath (w.pathlen * 2) = _
      rw [realloc, htake, hfull, List.append_assoc]
    · change w.pathlen * 2 = (realloc memory w.fullpath (w.pathlen * 2)).length
      rw [realloc, htake, List.length_append, List.length_map, List.length_range]
      omega
    · change 256 ≤ w.pathlen * 2
      omega
    · change path.length + 255 + 2 ≤ w.pathlen * 2
      omega
    · change w.pathlen ≤ w.pathlen * 2
      omega
  · exact ⟨⟨⟨rest, hfull⟩, hsize, hlarge⟩, by omega, le_rfl, rfl⟩

theorem stringAt_zero (hpath : 0 ∉ path) (hfull : w.fullpath = path ++ 0 :: rest) :
    stringAt w.fullpath 0 = some path := by
  have hmem : 0 ∈ w.fullpath.drop 0 := by
    rw [hfull]
    simp
  rw [stringAt, if_pos hmem, List.drop_zero, hfull, cut_append_nul hpath]

end Buffer

/-! ### The walk is the plain recursion -/

section Calls

variable {σ : Type} {func : Myfunc σ}

theorem calls_singleton (c : Call) (s : σ) : calls func [c] s = func c s := by
  rw [calls]
  cases h : func c s with
  | none => rfl
  | some r =>
    obtain ⟨ret, s'⟩ := r
    by_cases hret : ret = 0
    · subst hret
      rfl
    · simp [hret]

theorem calls_append (cs ds : List Call) (s : σ) : calls func (cs ++ ds) s =
    (calls func cs s).bind fun r => if r.1 ≠ 0 then some r else calls func ds r.2 := by
  induction cs generalizing s with
  | nil => rfl
  | cons c cs ih =>
    rw [List.cons_append, calls, calls]
    cases func c s with
    | none => rfl
    | some r =>
      obtain ⟨ret, s'⟩ := r
      by_cases hret : ret = 0
      · simp [hret, ih]
      · simp [hret]

end Calls

section Follow

variable {σ : Type} {fs : FileSystem} {memory : ℕ → UInt8} {func : Myfunc σ}
  {w : Walk σ} {path : Text}

/-- The walk ends as the calls do, with the path still in front of the buffer. -/
structure Follows (w : Walk σ) (path : Text) (result : Option (ℤ × Walk σ))
    (expected : Option (ℤ × σ)) : Prop where
  result_eq : (result.map fun r => (r.1, r.2.state)) = expected
  begins : ∀ r, result = some r → Begins r.2 path ∧ w.pathlen ≤ r.2.pathlen

/-- A path with its end is in the buffer. -/
structure Ready (w : Walk σ) (path : Text) : Prop where
  nul : 0 ∉ path
  path_eq : ∃ rest, w.fullpath = path ++ 0 :: rest
  pathlen_eq : w.pathlen = w.fullpath.length
  large : 256 ≤ w.pathlen

theorem Ready.begins (h : Ready w path) : Begins w path ∧ path.length < w.pathlen := by
  obtain ⟨rest, hfull⟩ := h.path_eq
  have hlen := congrArg List.length hfull
  rw [← h.pathlen_eq, List.length_append, List.length_cons] at hlen
  exact ⟨⟨⟨0 :: rest, hfull⟩, h.pathlen_eq, h.large⟩, by omega⟩

theorem Ready.stringAt (h : Ready w path) : stringAt w.fullpath 0 = some path := by
  obtain ⟨rest, hfull⟩ := h.path_eq
  exact stringAt_zero h.nul hfull

theorem Begins.of_append {p q : Text} (h : Begins w (p ++ q)) : Begins w p := by
  obtain ⟨⟨rest, hfull⟩, hsize, hlarge⟩ := h
  exact ⟨⟨q ++ rest, by rw [hfull, List.append_assoc]⟩, hsize, hlarge⟩

theorem Begins.of_fullpath {w' : Walk σ} (h : Begins w path) (hfull : w'.fullpath = w.fullpath)
    (hsize : w'.pathlen = w.pathlen) : Begins w' path :=
  ⟨by rw [hfull]; exact h.path_eq, by rw [hsize, hfull]; exact h.pathlen_eq,
    by rw [hsize]; exact h.large⟩

variable (func) in
/-- One call does not touch the buffer. -/
theorem call_cases (h : Begins w path) (c : Call) :
    Follows w path (w.call func c) (func c w.state) := by
  refine ⟨?_, fun r hr => ?_⟩
  · rw [Walk.call, Option.map_map]
    exact Option.map_id'
  · obtain ⟨r', -, rfl⟩ := Option.map_eq_some_iff.mp hr
    exact ⟨h.of_fullpath rfl rfl, le_rfl⟩

/-- After a part of the walk comes another one, where the first returns 0. -/
theorem Follows.bind {result : Option (ℤ × Walk σ)} {expected : Option (ℤ × σ)}
    {k : ℤ × Walk σ → Option (ℤ × Walk σ)} {expected' : σ → Option (ℤ × σ)}
    (h : Follows w path result expected)
    (h' : ∀ w', Begins w' path → w.pathlen ≤ w'.pathlen →
      Follows w' path (k (0, w')) (expected' w'.state)) :
    Follows w path (result.bind fun r => if r.1 ≠ 0 then some r else k r)
      (expected.bind fun r => if r.1 ≠ 0 then some r else expected' r.2) := by
  obtain ⟨rfl, hbegins⟩ := h
  cases result with
  | none => exact ⟨rfl, fun r hr => by cases hr⟩
  | some r =>
    obtain ⟨hr, hle⟩ := hbegins r rfl
    obtain ⟨ret, w'⟩ := r
    simp only [Option.map_some, Option.bind_some]
    by_cases hret : ret = 0
    · subst hret
      have hnext := h' w' hr hle
      exact ⟨hnext.result_eq, fun r' hr' =>
        ⟨(hnext.begins r' hr').1, hle.trans (hnext.begins r' hr').2⟩⟩
    · rw [if_pos hret, if_pos hret]
      refine ⟨rfl, fun r' hr' => ?_⟩
      obtain rfl := Option.some.inj hr'
      exact ⟨hr, hle⟩

/-- A name behind the slash makes a new path. -/
theorem Begins.store_name (h : Begins w (path ++ [47])) (hpath : 0 ∉ path) {d_name : Text}
    (hnul : 0 ∉ d_name) (hroom : path.length + d_name.length + 2 ≤ w.pathlen) :
    ∃ w', w.store (path.length + 1) (d_name ++ [0]) = some w' ∧
      Ready w' (path ++ 47 :: d_name) ∧ w'.pathlen = w.pathlen ∧ w'.state = w.state := by
  obtain ⟨rest, hstore, hsize⟩ := h.store (t := d_name ++ [0]) (by
    simp only [List.length_append, List.length_singleton]
    omega)
  rw [List.length_append, List.length_singleton] at hstore
  refine ⟨_, hstore, ⟨?_, ⟨rest, by simp⟩, hsize.symm, h.large⟩, rfl, rfl⟩
  simp [hpath, hnul]

theorem Follows.shorter {p q : Text} {result : Option (ℤ × Walk σ)} {expected : Option (ℤ × σ)}
    (h : Follows w (p ++ q) result expected) : Follows w p result expected :=
  ⟨h.result_eq, fun r hr => ⟨(h.begins r hr).1.of_append, (h.begins r hr).2⟩⟩

variable (memory func) in
/-- The names of one directory. -/
theorem entries_follows {depth : ℕ}
    (ih : ∀ {w : Walk σ} {path : Text} {cs : List Call}, visits fs depth path = some cs →
      Ready w path → Follows w path (dopath fs memory func depth w) (calls func cs w.state))
    (hpath : 0 ∉ path) {names : List Text}
    (hnames : ∀ d_name ∈ names, d_name.length ≤ NAME_MAX ∧ 0 ∉ d_name) {below : List (List Call)}
    (hbelow : ((names.filter fun d_name => ¬ IsDot d_name).mapM fun d_name =>
      visits fs depth (path ++ 47 :: d_name)) = some below)
    {w : Walk σ} (hw : Begins w (path ++ [47])) (hroom : path.length + NAME_MAX + 2 ≤ w.pathlen) :
    Follows w (path ++ [47]) (entries (dopath fs memory func depth) (path.length + 1) names 0 w)
      (calls func below.flatten w.state) := by
  induction names generalizing below w with
  | nil =>
    obtain rfl : below = [] := by simpa using hbelow.symm
    exact ⟨rfl, fun r hr => by
      obtain rfl := Option.some.inj hr
      exact ⟨hw, le_rfl⟩⟩
  | cons d_name names ihn =>
    have hrest : ∀ d ∈ names, d.length ≤ NAME_MAX ∧ 0 ∉ d := fun d hd =>
      hnames d (List.mem_cons_of_mem d_name hd)
    rw [entries]
    by_cases hdot : IsDot d_name
    · rw [if_pos hdot]
      refine ihn hrest ?_ hw hroom
      rwa [List.filter_cons_of_neg (by simpa using hdot)] at hbelow
    · rw [List.filter_cons_of_pos (by simpa using hdot), List.mapM_cons] at hbelow
      obtain ⟨cs, hcs, hbelow⟩ := Option.bind_eq_some_iff.mp hbelow
      obtain ⟨below', hbelow', hb⟩ := Option.bind_eq_some_iff.mp hbelow
      obtain rfl : cs :: below' = below := Option.some.inj hb
      obtain ⟨hlen, hnul⟩ := hnames d_name List.mem_cons_self
      obtain ⟨w₁, hstore, hready, hsize, hstate⟩ := hw.store_name hpath hnul (by omega)
      rw [if_neg hdot, hstore, List.flatten_cons, calls_append, ← hstate]
      have hcall : Follows w₁ (path ++ [47]) (dopath fs memory func depth w₁)
          (calls func cs w₁.state) := by
        refine Follows.shorter (q := d_name) ?_
        rw [List.append_assoc]
        exact ih hcs hready
      have hnext := hcall.bind (k := fun r =>
          entries (dopath fs memory func depth) (path.length + 1) names r.1 r.2)
        fun w₂ hw₂ hle => ihn hrest hbelow' hw₂ (hroom.trans (hsize.symm.le.trans hle))
      refine ⟨hnext.result_eq, fun r hr => ?_⟩
      have hbegins := hnext.begins r hr
      exact ⟨hbegins.1, hsize.symm.le.trans hbegins.2⟩

/-- The slash is erased after the loop. -/
theorem Follows.erase {result : Option (ℤ × Walk σ)} {expected : Option (ℤ × σ)}
    (h : Follows w (path ++ [47]) result expected) :
    Follows w path (result.bind fun r => (r.2.store path.length [0]).bind fun w => some (r.1, w))
      expected := by
  obtain ⟨rfl, hbegins⟩ := h
  cases result with
  | none => exact ⟨rfl, fun r hr => by cases hr⟩
  | some r =>
    obtain ⟨⟨⟨rest, hfull⟩, hsize, hlarge⟩, hle⟩ := hbegins r rfl
    have hstore : r.2.store path.length [0] =
        some { r.2 with fullpath := path ++ ([0] ++ rest) } :=
      store_eq (q := [47]) (by rw [hfull, List.append_assoc]) rfl rfl
    rw [Option.bind_some, hstore, Option.bind_some]
    refine ⟨rfl, fun r' hr' => ?_⟩
    obtain rfl := Option.some.inj hr'
    refine ⟨⟨⟨_, rfl⟩, ?_, hlarge⟩, hle⟩
    rw [hsize, hfull]
    simp

/-- What follows the first call for a directory. -/
theorem descend_follows (hfs : fs.Named) {depth : ℕ}
    (ih : ∀ {w : Walk σ} {path : Text} {cs : List Call}, visits fs depth path = some cs →
      Ready w path → Follows w path (dopath fs memory func depth w) (calls func cs w.state))
    (hpath : 0 ∉ path) {below : List Call} (hbelow : inside fs (visits fs depth) path = some below)
    (hw : Begins w path) (hlt : path.length < w.pathlen) :
    Follows w path (descend fs memory func (dopath fs memory func depth) .dir path.length 0 w)
      (calls func below w.state) := by
  obtain ⟨hexpand, hroom, hle, hstate⟩ := hw.expand hlt memory
  obtain ⟨rest, hstore, hsize⟩ := hexpand.store (t := [47, 0]) (by
    change path.length + 2 ≤ _
    omega)
  have hslash : 0 ∉ path ++ [47] := by simp [hpath]
  have hbegins : Begins { w.expand memory path.length with fullpath := path ++ ([47, 0] ++ rest) }
      (path ++ [47]) := ⟨⟨0 :: rest, by simp⟩, hsize.symm, hexpand.large⟩
  have hfull : path ++ ([47, 0] ++ rest) = path ++ [47] ++ 0 :: rest := by simp
  have hstring : stringAt (path ++ ([47, 0] ++ rest)) 0 = some (path ++ [47]) :=
    stringAt_zero (w := ⟨_, 0, w.state⟩) hslash hfull
  rw [inside] at hbelow
  rw [descend, hstore, ← hstate]
  simp only [Option.bind_eq_bind, Option.bind_some, hstring]
  cases hopen : fs.opendir (path ++ [47]) with
  | none =>
    rw [hopen] at hbelow
    obtain rfl := Option.some.inj hbelow
    rw [calls_singleton]
    have hcall := (call_cases func hbegins ⟨path ++ [47], some .dir, .DNR⟩).shorter
    exact ⟨hcall.result_eq, fun r hr => ⟨(hcall.begins r hr).1, hle.trans (hcall.begins r hr).2⟩⟩
  | some names =>
    rw [hopen] at hbelow
    obtain ⟨lists, hlists, rfl⟩ := Option.map_eq_some_iff.mp hbelow
    have hentries := entries_follows memory func ih hpath
      (hfs _ _ hopen) hlists hbegins hroom
    exact ⟨hentries.erase.result_eq, fun r hr =>
      ⟨(hentries.erase.begins r hr).1, hle.trans (hentries.erase.begins r hr).2⟩⟩

/-- The walk from a path in the buffer makes the calls of the plain recursion. -/
theorem dopath_follows (hfs : fs.Named) {depth : ℕ} : ∀ {w : Walk σ} {path : Text}
    {cs : List Call}, visits fs depth path = some cs → Ready w path →
      Follows w path (dopath fs memory func depth w) (calls func cs w.state) := by
  induction depth with
  | zero =>
    intro w path cs hcs
    cases hcs
  | succ depth ih =>
    intro w path cs hcs hw
    obtain ⟨hbegins, hlt⟩ := hw.begins
    rw [visits] at hcs
    rw [dopath, hw.stringAt, Option.bind_eq_bind, Option.bind_some]
    cases hstat : fs.lstat path with
    | none =>
      rw [hstat] at hcs
      obtain rfl := Option.some.inj hcs
      rw [calls_singleton]
      exact call_cases func hbegins _
    | some kind =>
      rw [hstat] at hcs
      dsimp only at hcs ⊢
      by_cases hkind : kind ≠ .dir
      · rw [if_pos hkind] at hcs ⊢
        obtain rfl := Option.some.inj hcs
        rw [calls_singleton]
        exact call_cases func hbegins _
      · rw [if_neg hkind] at hcs ⊢
        obtain rfl : kind = .dir := not_not.mp hkind
        obtain ⟨below, hbelow, rfl⟩ := Option.map_eq_some_iff.mp hcs
        rw [calls]
        exact (call_cases func hbegins ⟨path, some .dir, .D⟩).bind (k := fun r =>
          descend fs memory func (dopath fs memory func depth) .dir path.length r.1 r.2)
          fun w₁ hw₁ hle => descend_follows hfs ih hw.nul hbelow hw₁ (hlt.trans_le hle)

variable (memory) in
/-- The buffer of `myftw` has room for the path. -/
theorem store_pathname {size : ℕ} (hsize : 256 ≤ size) (hpath : 0 ∉ path) (s : σ) :
    ∃ w, Walk.store ⟨realloc memory [] (bufferSize size path), bufferSize size path, s⟩ 0
      (path ++ [0]) = some w ∧ Ready w path ∧ w.state = s := by
  have hlarge : path.length < bufferSize size path ∧ 256 ≤ bufferSize size path := by
    unfold bufferSize
    split_ifs <;> omega
  have hbegins : Begins (⟨realloc memory [] (bufferSize size path), bufferSize size path, s⟩ :
      Walk σ) [] := ⟨⟨_, rfl⟩, by simp [realloc], hlarge.2⟩
  obtain ⟨rest, hstore, hlen⟩ := hbegins.store (t := path ++ [0]) (by
    simp only [List.length_nil, List.length_append, List.length_singleton]
    omega)
  exact ⟨_, hstore, ⟨hpath, ⟨rest, by simp⟩, hlen.symm, hlarge.2⟩, rfl⟩

variable (memory func) in
theorem myftw_follows (hfs : fs.Named) {depth size : ℕ} (hsize : 256 ≤ size) (hpath : 0 ∉ path)
    {cs : List Call} (hcs : visits fs depth path = some cs) (s : σ) :
    ∃ w, Follows w path (myftw fs memory func depth size path s) (calls func cs s) := by
  obtain ⟨w, hstore, hready, rfl⟩ := store_pathname memory hsize hpath s
  refine ⟨w, ?_⟩
  rw [myftw, hstore]
  exact dopath_follows hfs hcs hready

/-- `myftw` makes the calls of the plain recursion up to the first that does not return 0, and
returns what the last one does. No name is written outside the buffer, which still starts with
the path. -/
theorem myftw_eq (hfs : fs.Named) {depth size : ℕ} (hsize : 256 ≤ size) (hpath : 0 ∉ path)
    {cs : List Call} (hcs : visits fs depth path = some cs) (s : σ) :
    ((myftw fs memory func depth size path s).map fun r => (r.1, r.2.state)) = calls func cs s ∧
      ∀ r, myftw fs memory func depth size path s = some r →
        path <+: r.2.fullpath ∧ r.2.pathlen = r.2.fullpath.length := by
  obtain ⟨w, hfollows⟩ := myftw_follows memory func hfs hsize hpath hcs s
  refine ⟨hfollows.result_eq, fun r hr => ?_⟩
  obtain ⟨⟨⟨rest, hfull⟩, hlen, -⟩, -⟩ := hfollows.begins r hr
  exact ⟨⟨rest, hfull.symm⟩, hlen⟩

/-- A directory with a file and a directory that cannot be read. -/
def sample : FileSystem where
  lstat path :=
    if path = ascii "a" then some .dir
    else if path = ascii "a/b" then some .reg
    else if path = ascii "a/c" then some .dir
    else none
  opendir path :=
    if path = ascii "a/" then some [ascii ".", ascii "..", ascii "b", ascii "c"] else none

theorem sample_opendir {path : Text} {names : List Text} (h : sample.opendir path = some names) :
    names = [ascii ".", ascii "..", ascii "b", ascii "c"] := by
  unfold sample at h
  dsimp only at h
  split_ifs at h
  exact (Option.some.inj h).symm

theorem sample_named : sample.Named := by
  intro path names h
  obtain rfl := sample_opendir h
  decide

/-- The function keeps the paths, and stops at the file. -/
theorem myftw_eq_sample :
    ((myftw sample (fun _ => 0) (fun c s =>
      some (if c.pathname = ascii "a/b" then 7 else 0, s ++ [c.pathname])) 3 256 (ascii "a")
        []).map fun r => (r.1, r.2.state)) = some (7, [ascii "a", ascii "a/b"]) :=
  (myftw_eq sample_named le_rfl (by decide) rfl []).1.trans (by decide)

end Follow

end SchoolProjects.FileWalk
