/-
# `Dpx.Lib.Files` — a tree of directories and files

A path is the list of its elements from the root.  A `FileSystem` maps paths to files and
directories; that everything but the root stands in a directory and has a proper name is a
field, so no operation can lose it.  Operations fail where the tree is in the way: a file where
a directory is needed, a directory where a file is to be written, a directory that is not there.
Failures of the device, permissions and links are not modelled.

`clean` is the meaning of a rooted path text: separators are collapsed, `.` is dropped, `..`
removes the element before it and, at the root, nothing.  So it is a path, whatever the text
(`clean_join` gives back the elements of one).

The map is ordered elementwise, which is the order in which a walk visits the tree: a directory
before what it holds, siblings by name.
-/
import Std.Data.ExtTreeMap
import Mathlib.Data.List.Induction

namespace Files

abbrev Path := List (List UInt8)

/-! ## Path texts -/

def slash : UInt8 := 0x2f

def dot : List UInt8 := [0x2e]

def dotDot : List UInt8 := [0x2e, 0x2e]

/-- What may stand in a directory. -/
def IsName (c : List UInt8) : Prop := c ≠ [] ∧ c ≠ dot ∧ c ≠ dotDot ∧ slash ∉ c ∧ 0 ∉ c

instance instDecidableIsName (c : List UInt8) : Decidable (IsName c) :=
  inferInstanceAs (Decidable (_ ∧ _))

/-- One element of a rooted text, after the ones before it. -/
def push (p : Path) (c : List UInt8) : Path :=
  if c = [] ∨ c = dot then p else if c = dotDot then p.dropLast else p ++ [c]

/-- The path a text means when it is read from the root. -/
def clean (text : List UInt8) : Path := (text.splitOn slash).foldl push []

/-- The text of a path below some directory. -/
def join (p : Path) : List UInt8 := if p = [] then dot else [slash].intercalate p

theorem foldl_push {q : Path} (hq : ∀ c ∈ q, IsName c) : ∀ p : Path, q.foldl push p = p ++ q := by
  induction q with
  | nil => exact fun p => (List.append_nil p).symm
  | cons c q ih =>
      intro p
      obtain ⟨hne, hdot, hdotDot, -⟩ := hq c List.mem_cons_self
      have hpush : push p c = p ++ [c] := by
        rw [push, if_neg (not_or.mpr ⟨hne, hdot⟩), if_neg hdotDot]
      rw [List.foldl_cons, hpush, ih fun d hd => hq d (List.mem_cons_of_mem c hd),
        List.append_assoc, List.singleton_append]

theorem clean_join {p : Path} (hp : ∀ c ∈ p, IsName c) : clean (join p) = p := by
  cases p with
  | nil => decide
  | cons c p =>
      have hslash : ∀ d ∈ c :: p, slash ∉ d := fun d hd => (hp d hd).2.2.2.1
      rw [join, if_neg (List.cons_ne_nil c p), clean,
        List.splitOn_intercalate slash hslash (List.cons_ne_nil c p), foldl_push hp,
        List.nil_append]

theorem not_append_above {q : Path} (hq : q ≠ []) (p : Path) : ¬ p ++ q <+: p := by
  intro hle
  have := hle.length_le
  rw [List.length_append] at this
  exact hq (List.length_eq_zero_iff.mp (by omega))

/-! ## The tree -/

theorem getElem?_filter_eq {K V : Type} [Ord K] [Std.TransOrd K] [Std.LawfulEqOrd K]
    (t : Std.ExtTreeMap K V) (f : K → V → Bool) (k : K) :
    (t.filter f)[k]? = (t[k]?).filter (f k) := by
  rw [Std.ExtTreeMap.getElem?_filter]
  simp only [Std.ExtTreeMap.getKey_eq]
  exact Option.pfilter_eq_filter

inductive Node where
  | file (content : List UInt8)
  | dir
  deriving DecidableEq, Repr

structure FileSystem where
  nodes : Std.ExtTreeMap Path Node
  root : nodes[([] : Path)]? = some .dir
  parent : ∀ (p : Path) (c : List UInt8) (n : Node), nodes[p ++ [c]]? = some n →
    IsName c ∧ nodes[p]? = some .dir

inductive FileError where
  | notExist
  | notDir
  | isDir
  | invalid
  deriving DecidableEq, Repr

namespace FileSystem

def node (fs : FileSystem) (p : Path) : Option Node := fs.nodes[p]?

/-- The root alone. -/
def empty : FileSystem where
  nodes := (∅ : Std.ExtTreeMap Path Node).insert [] .dir
  root := Std.ExtTreeMap.getElem?_insert_self
  parent := by
    intro p c n h
    have hne : ¬ compare ([] : Path) (p ++ [c]) = .eq := by
      intro heq
      exact List.append_ne_nil_of_right_ne_nil p (List.cons_ne_nil c [])
        (Std.LawfulEqOrd.compare_eq_iff_eq.mp heq).symm
    rw [Std.ExtTreeMap.getElem?_insert, if_neg hne, Std.ExtTreeMap.getElem?_empty] at h
    cases h

theorem node_empty (q : Path) : empty.node q = if q = [] then some .dir else none := by
  simp only [node, empty, Std.ExtTreeMap.getElem?_insert, Std.LawfulEqOrd.compare_eq_iff_eq,
    Std.ExtTreeMap.getElem?_empty]
  exact if_congr eq_comm rfl rfl

variable {fs fs' : FileSystem}

theorem node_dir_of_append {p q : Path} {n : Node} (h : fs.node (p ++ q) = some n) (hq : q ≠ []) :
    fs.node p = some .dir := by
  induction q using List.reverseRecOn generalizing n with
  | nil => exact absurd rfl hq
  | append_singleton q c ih =>
      rw [← List.append_assoc] at h
      have hparent := (fs.parent _ c n h).2
      by_cases hnil : q = []
      · rwa [hnil, List.append_nil] at hparent
      · exact ih hparent hnil

theorem node_append_eq_none {p : Path} (h : fs.node p = none) (q : Path) :
    fs.node (p ++ q) = none := by
  by_cases hq : q = []
  · rwa [hq, List.append_nil]
  · rw [Option.eq_none_iff_forall_ne_some]
    intro n hn
    rw [node_dir_of_append hn hq] at h
    cases h

theorem node_dir_above {p q : Path} (h : fs.node p = some .dir) (hq : q <+: p) :
    fs.node q = some .dir := by
  obtain ⟨r, rfl⟩ := hq
  by_cases hr : r = []
  · rwa [hr, List.append_nil] at h
  · exact node_dir_of_append h hr

theorem isName_of_node {p : Path} {n : Node} (h : fs.node p = some n) : ∀ c ∈ p, IsName c := by
  induction p using List.reverseRecOn generalizing n with
  | nil => exact fun c hc => absurd hc List.not_mem_nil
  | append_singleton p c ih =>
      obtain ⟨hname, hparent⟩ := fs.parent p c n h
      intro d hd
      rcases List.mem_append.mp hd with hd | hd
      · exact ih hparent d hd
      · rwa [List.mem_singleton.mp hd]

/-! ### Putting something in a directory -/

/-- `n` is put into the directory `p` under the name `c`; a directory is not replaced by a
file. -/
def put (fs : FileSystem) (p : Path) (c : List UInt8) (n : Node) (hname : IsName c)
    (hdir : fs.node p = some .dir) (hn : fs.node (p ++ [c]) = some .dir → n = .dir) :
    FileSystem where
  nodes := fs.nodes.insert (p ++ [c]) n
  root := by
    rw [Std.ExtTreeMap.getElem?_insert, if_neg, fs.root]
    intro heq
    exact List.append_ne_nil_of_right_ne_nil p (List.cons_ne_nil c [])
      (Std.LawfulEqOrd.compare_eq_iff_eq.mp heq)
  parent := by
    intro q d m h
    simp only [Std.ExtTreeMap.getElem?_insert, Std.LawfulEqOrd.compare_eq_iff_eq] at h ⊢
    split at h
    · rename_i heq
      obtain ⟨rfl, hcd⟩ := List.append_inj' heq rfl
      rw [List.cons.injEq] at hcd
      rw [if_neg fun heq => absurd (congrArg List.length heq) (by simp)]
      exact ⟨hcd.1 ▸ hname, hdir⟩
    · obtain ⟨hd, hq⟩ := fs.parent q d m h
      refine ⟨hd, ?_⟩
      split
      · rename_i heq
        rw [hn (heq ▸ hq)]
      · exact hq

theorem node_put (p : Path) (c : List UInt8) (n : Node) (hname : IsName c)
    (hdir : fs.node p = some .dir) (hn : fs.node (p ++ [c]) = some .dir → n = .dir) (q : Path) :
    (fs.put p c n hname hdir hn).node q = if q = p ++ [c] then some n else fs.node q := by
  simp only [node, put, Std.ExtTreeMap.getElem?_insert, Std.LawfulEqOrd.compare_eq_iff_eq]
  exact if_congr eq_comm rfl rfl

/-! ### Making directories -/

/-- A directory `c` in `p`, unless it is there. -/
def mkdir (fs : FileSystem) (p : Path) (c : List UInt8) : Except FileError FileSystem :=
  if hname : IsName c then
    if hdir : fs.node p = some .dir then
      match fs.node (p ++ [c]) with
      | some (.file _) => .error .notDir
      | _ => .ok (fs.put p c .dir hname hdir fun _ => rfl)
    else .error .notExist
  else .error .invalid

def mkdirFrom (fs : FileSystem) (p : Path) : List (List UInt8) → Except FileError FileSystem
  | [] => .ok fs
  | c :: rest =>
      match fs.mkdir p c with
      | .error e => .error e
      | .ok fs => fs.mkdirFrom (p ++ [c]) rest

/-- The directory `p`, and all it stands in. -/
def mkdirAll (fs : FileSystem) (p : Path) : Except FileError FileSystem := fs.mkdirFrom [] p

theorem mkdir_ok {p : Path} {c : List UInt8} (h : fs.mkdir p c = .ok fs') :
    (∀ b, fs.node (p ++ [c]) ≠ some (.file b)) ∧
      ∀ q, fs'.node q = if q = p ++ [c] then some .dir else fs.node q := by
  revert h
  fun_cases mkdir fs p c with
  | case2 hname hdir hfree =>
      intro h
      cases h
      exact ⟨fun b hb => hfree b hb, node_put p c .dir hname hdir _⟩
  | case1 | case3 | case4 =>
      intro h
      cases h

theorem exists_mkdir {p : Path} {c : List UInt8} (hname : IsName c) (hdir : fs.node p = some .dir)
    (hfree : ∀ b, fs.node (p ++ [c]) ≠ some (.file b)) : ∃ fs', fs.mkdir p c = .ok fs' := by
  fun_cases mkdir fs p c with
  | case1 hname hdir b hfile => exact absurd hfile (hfree b)
  | case2 hname hdir hfree => exact ⟨_, rfl⟩
  | case3 hname hdir' => exact absurd hdir hdir'
  | case4 hname' => exact absurd hname hname'

theorem mkdirFrom_ok (rest : List (List UInt8)) : ∀ {fs : FileSystem} {p : Path},
    fs.node p = some .dir → fs.mkdirFrom p rest = .ok fs' →
    (∀ q b, q <+: p ++ rest → fs.node q ≠ some (.file b)) ∧
      ∀ q, fs'.node q = if q <+: p ++ rest then some .dir else fs.node q := by
  induction rest with
  | nil =>
      intro fs p hdir h
      cases h
      have habove : ∀ q, q <+: p ++ [] → fs'.node q = some .dir := by
        rw [List.append_nil]
        exact fun q hq => node_dir_above hdir hq
      refine ⟨fun q b hq => by simp [habove q hq], fun q => ?_⟩
      split
      · rename_i hq
        exact habove q hq
      · rfl
  | cons c rest ih =>
      intro fs p hdir h
      rw [mkdirFrom] at h
      cases hmk : fs.mkdir p c with
      | error e =>
          rw [hmk] at h
          cases h
      | ok fs₁ =>
          rw [hmk] at h
          obtain ⟨hfree, hnode⟩ := mkdir_ok hmk
          have hdir' : fs₁.node (p ++ [c]) = some .dir := by rw [hnode, if_pos rfl]
          obtain ⟨hrest, hafter⟩ := ih hdir' h
          rw [List.append_assoc, List.singleton_append] at hrest hafter
          constructor
          · intro q b hq
            by_cases hqc : q = p ++ [c]
            · exact hqc ▸ hfree b
            · have := hrest q b hq
              rwa [hnode, if_neg hqc] at this
          · intro q
            rw [hafter, hnode]
            refine if_ctx_congr Iff.rfl (fun _ => rfl) fun hq => if_neg ?_
            rintro rfl
            exact hq ⟨rest, by simp⟩

theorem exists_mkdirFrom (rest : List (List UInt8)) : ∀ {fs : FileSystem} {p : Path},
    fs.node p = some .dir → (∀ c ∈ rest, IsName c) →
    (∀ q b, q <+: p ++ rest → fs.node q ≠ some (.file b)) →
    ∃ fs', fs.mkdirFrom p rest = .ok fs' := by
  induction rest with
  | nil => exact fun _ _ _ => ⟨_, rfl⟩
  | cons c rest ih =>
      intro fs p hdir hnames hfree
      have hbelow : p ++ [c] <+: p ++ c :: rest := ⟨rest, by simp⟩
      obtain ⟨fs₁, hmk⟩ := exists_mkdir (hnames c List.mem_cons_self) hdir
        fun b => hfree _ b hbelow
      have hnode := (mkdir_ok hmk).2
      rw [mkdirFrom, hmk]
      refine ih (by rw [hnode, if_pos rfl]) (fun d hd => hnames d (List.mem_cons_of_mem c hd)) ?_
      intro q b hq
      rw [List.append_assoc, List.singleton_append] at hq
      rw [hnode]
      split
      · simp
      · exact hfree q b hq

/-- What `mkdirAll` makes, and nothing else changes. -/
theorem mkdirAll_ok {p : Path} (h : fs.mkdirAll p = .ok fs') (q : Path) :
    fs'.node q = if q <+: p then some .dir else fs.node q :=
  (mkdirFrom_ok p fs.root h).2 q

theorem mkdirAll_free {p : Path} (h : fs.mkdirAll p = .ok fs') {q : Path} (hq : q <+: p)
    (b : List UInt8) : fs.node q ≠ some (.file b) :=
  (mkdirFrom_ok p fs.root h).1 q b hq

theorem exists_mkdirAll {p : Path} (hnames : ∀ c ∈ p, IsName c)
    (hfree : ∀ q b, q <+: p → fs.node q ≠ some (.file b)) : ∃ fs', fs.mkdirAll p = .ok fs' :=
  exists_mkdirFrom p fs.root hnames hfree

/-! ### Files -/

/-- A file in place of a file, or of nothing. -/
def writeFile (fs : FileSystem) (p : Path) (content : List UInt8) : Except FileError FileSystem :=
  match p.getLast? with
  | none => .error .isDir
  | some c =>
      if hname : IsName c then
        if hdir : fs.node p.dropLast = some .dir then
          if hn : fs.node (p.dropLast ++ [c]) = some .dir then .error .isDir
          else .ok (fs.put p.dropLast c (.file content) hname hdir fun h => absurd h hn)
        else .error .notExist
      else .error .invalid

def readFile (fs : FileSystem) (p : Path) : Except FileError (List UInt8) :=
  match fs.node p with
  | none => .error .notExist
  | some .dir => .error .isDir
  | some (.file content) => .ok content

theorem writeFile_ok {p : Path} {content : List UInt8} (h : fs.writeFile p content = .ok fs') :
    fs.node p ≠ some .dir ∧
      ∀ q, fs'.node q = if q = p then some (.file content) else fs.node q := by
  revert h
  fun_cases writeFile fs p content with
  | case3 c hlast hname hdir hn =>
      intro h
      cases h
      obtain ⟨d, rfl⟩ := List.getLast?_eq_some_iff.mp hlast
      rw [List.dropLast_concat] at hn
      refine ⟨hn, fun q => ?_⟩
      rw [node_put, List.dropLast_concat]
  | case1 | case2 | case4 | case5 =>
      intro h
      cases h

theorem exists_writeFile {p : Path} {c : List UInt8} (content : List UInt8) (hname : IsName c)
    (hdir : fs.node p = some .dir) (hn : fs.node (p ++ [c]) ≠ some .dir) :
    ∃ fs', fs.writeFile (p ++ [c]) content = .ok fs' := by
  rw [writeFile, List.getLast?_concat]
  simp only [List.dropLast_concat, hname, hdir, hn, dite_true, dite_false]
  exact ⟨_, rfl⟩

/-! ### Removal -/

/-- `p` and all below it are gone; the root stays. -/
def removeAll (fs : FileSystem) (p : Path) : FileSystem where
  nodes := fs.nodes.filter fun q _ => decide (q = [] ∨ ¬ p <+: q)
  root := by
    rw [getElem?_filter_eq, fs.root]
    simp
  parent := by
    intro q c n h
    rw [getElem?_filter_eq, Option.filter_eq_some_iff, decide_eq_true_eq] at h
    obtain ⟨hn, hkept⟩ := h
    obtain ⟨hname, hq⟩ := fs.parent q c n hn
    refine ⟨hname, ?_⟩
    have hout : ¬ p <+: q := by
      intro hpq
      rcases hkept with hnil | hout
      · exact List.append_ne_nil_of_right_ne_nil q (List.cons_ne_nil c []) hnil
      · exact hout (hpq.trans (List.prefix_append q [c]))
    rw [getElem?_filter_eq, hq]
    simp [hout]

theorem node_removeAll (fs : FileSystem) (p q : Path) :
    (fs.removeAll p).node q = if q = [] ∨ ¬ p <+: q then fs.node q else none := by
  simp only [node, removeAll, getElem?_filter_eq]
  cases fs.nodes[q]? with
  | none => simp
  | some n => simp only [Option.filter_some, decide_eq_true_eq]

/-! ### What a walk finds -/

/-- The files at or below `p`, as a walk meets them, each under its path from there. -/
def files (fs : FileSystem) (p : Path) : List (Path × List UInt8) :=
  fs.nodes.toList.filterMap fun e =>
    match e.2 with
    | .dir => none
    | .file content => if p <+: e.1 then some (e.1.drop p.length, content) else none

theorem mem_files {p q : Path} {content : List UInt8} :
    (q, content) ∈ fs.files p ↔ fs.node (p ++ q) = some (.file content) := by
  rw [files, List.mem_filterMap]
  constructor
  · rintro ⟨⟨r, n⟩, hmem, h⟩
    cases n with
    | dir => cases h
    | file b =>
        by_cases hp : p <+: r
        · simp only [if_pos hp, Option.some.injEq, Prod.mk.injEq] at h
          obtain ⟨t, rfl⟩ := hp
          rw [List.drop_left] at h
          rw [← h.1, ← h.2]
          exact Std.ExtTreeMap.mem_toList_iff_getElem?_eq_some.mp hmem
        · simp only [if_neg hp] at h
          cases h
  · intro h
    refine ⟨(p ++ q, .file content), Std.ExtTreeMap.mem_toList_iff_getElem?_eq_some.mpr h, ?_⟩
    simp only [if_pos (List.prefix_append p q), List.drop_left]

end FileSystem

end Files
