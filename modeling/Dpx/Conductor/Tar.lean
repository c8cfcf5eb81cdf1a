/-
# `Dpx.Conductor.Tar` — a directory as an archive

`conductor/snapshot.go`.  `tarDir` walks a directory and writes its files; directories get no
header of their own.  `untarDir` reads an archive from anywhere and writes below one directory.

`untarDir_contained`: whatever the archive says, nothing outside the directory changes, but for
the directories above it that are made if they are missing.  `..` in a name is taken at the root
of the archive, so it leads nowhere; an entry that means the directory itself fails, because a
directory is there.

`untarDir_tarDir`: what comes back from an archive is the tree it was made from without the
directories that hold no file, so the whole tree exactly if there is no such directory.

The archive format is that of `archive/tar`: a reader is given by what `Next` and `Copy` yield,
and reads back the headers and bodies that were written.
-/
import Dpx.Lib.Files
import Dpx.Engine.Interface

namespace Dpx

open Files

structure TarHeader where
  name : Bytes
  isDir : Bool
  deriving DecidableEq, Repr

/-- What is still to be read of an archive. -/
inductive TarReader where
  | eof
  /-- `Next` fails. -/
  | broken (err : String)
  | entry (hdr : TarHeader) (body : Bytes) (rest : TarReader)
  /-- The archive ends within a body. -/
  | cut (hdr : TarHeader) (body : Bytes) (err : String)

/-- What a `tar.Writer` has written is read back. -/
def TarReader.ofEntries (entries : List (TarHeader × Bytes)) : TarReader :=
  entries.foldr (fun e rest => .entry e.1 e.2 rest) .eof

inductive UntarError where
  | file (e : FileError)
  /-- `dpx/raft: untar: %w` -/
  | untar (err : String)
  /-- `dpx/raft: untar copy %s: %w` -/
  | copy (name : Bytes) (err : String)
  deriving DecidableEq

/-- `tarDir`.  The files do not change while it runs. -/
def tarDir (fs : FileSystem) (dir : Path) : Except FileError (List (TarHeader × Bytes)) :=
  match fs.node dir with
  | none => .error .notExist
  | some _ => .ok ((fs.files dir).map fun e => (⟨join e.1, false⟩, e.2))

/-- One turn of the loop of `untarDir`. -/
def untarEntry (dir : Path) (hdr : TarHeader) (body : Bytes) (fs : FileSystem) :
    Option FileError × FileSystem :=
  let target := dir ++ clean hdr.name
  if hdr.isDir then
    match fs.mkdirAll target with
    | .error e => (some e, fs)
    | .ok fs => (none, fs)
  else
    match fs.mkdirAll target.dropLast with
    | .error e => (some e, fs)
    | .ok fs =>
        match fs.writeFile target body with
        | .error e => (some e, fs)
        | .ok fs => (none, fs)

def untarLoop (dir : Path) : TarReader → FileSystem → Option UntarError × FileSystem
  | .eof, fs => (none, fs)
  | .broken err, fs => (some (.untar err), fs)
  | .entry hdr body rest, fs =>
      match untarEntry dir hdr body fs with
      | (some e, fs) => (some (.file e), fs)
      | (none, fs) => untarLoop dir rest fs
  | .cut hdr body err, fs =>
      match untarEntry dir hdr body fs with
      | (some e, fs) => (some (.file e), fs)
      -- the body of a directory is not copied, but `Next` has to skip it
      | (none, fs) => (some (if hdr.isDir then .untar err else .copy hdr.name err), fs)

def untarDir (r : TarReader) (dir : Path) (fs : FileSystem) : Option UntarError × FileSystem :=
  match fs.mkdirAll dir with
  | .error e => (some (.file e), fs)
  | .ok fs => untarLoop dir r fs

/-! ## Nothing outside -/

/-- Nothing but what is below `dir` differs, and `dir` is a directory. -/
def KeptOutside (dir : Path) (fs fs' : FileSystem) : Prop :=
  fs'.node dir = some .dir ∧ ∀ p, ¬ dir <+: p → fs'.node p = fs.node p

variable {dir : Path} {fs fs' fs'' : FileSystem}

theorem KeptOutside.trans (h : KeptOutside dir fs fs') (h' : KeptOutside dir fs' fs'') :
    KeptOutside dir fs fs'' :=
  ⟨h'.1, fun p hp => (h'.2 p hp).trans (h.2 p hp)⟩

theorem keptOutside_mkdirAll (hdir : fs.node dir = some .dir) {t : Path}
    (ht : dir <+: t ∨ t <+: dir) (h : fs.mkdirAll t = .ok fs') : KeptOutside dir fs fs' := by
  constructor
  · rw [FileSystem.mkdirAll_ok h, hdir, ite_self]
  · intro p hp
    rw [FileSystem.mkdirAll_ok h]
    split
    · rename_i hpt
      -- what is made outside stands above `dir`, and was there
      have habove : p <+: dir := by
        rcases ht with ht | ht
        · exact (List.prefix_or_prefix_of_prefix hpt ht).resolve_right hp
        · exact hpt.trans ht
      exact (FileSystem.node_dir_above hdir habove).symm
    · rfl

theorem keptOutside_writeFile (hdir : fs.node dir = some .dir) {t : Path} (ht : dir <+: t)
    {body : Bytes} (h : fs.writeFile t body = .ok fs') : KeptOutside dir fs fs' := by
  obtain ⟨hnot, hnode⟩ := FileSystem.writeFile_ok h
  constructor
  · rw [hnode, if_neg, hdir]
    rintro rfl
    exact hnot hdir
  · intro p hp
    rw [hnode, if_neg]
    rintro rfl
    exact hp ht

theorem keptOutside_untarEntry (hdir : fs.node dir = some .dir) (hdr : TarHeader) (body : Bytes) :
    KeptOutside dir fs (untarEntry dir hdr body fs).2 := by
  have hbelow : dir <+: dir ++ clean hdr.name := List.prefix_append _ _
  have hparent : dir <+: (dir ++ clean hdr.name).dropLast ∨
      (dir ++ clean hdr.name).dropLast <+: dir := by
    refine List.prefix_or_prefix_of_prefix hbelow (List.dropLast_prefix _)
  fun_cases untarEntry dir hdr body fs with
  | case1 target hisDir e hmk => exact ⟨hdir, fun _ _ => rfl⟩
  | case2 target hisDir fs₁ hmk => exact keptOutside_mkdirAll hdir (Or.inl hbelow) hmk
  | case3 target hfile e hmk => exact ⟨hdir, fun _ _ => rfl⟩
  | case4 target hfile fs₁ hmk e hwrite => exact keptOutside_mkdirAll hdir hparent hmk
  | case5 target hfile fs₁ hmk fs₂ hwrite =>
      have hkept := keptOutside_mkdirAll hdir hparent hmk
      exact hkept.trans (keptOutside_writeFile hkept.1 hbelow hwrite)

theorem keptOutside_untarLoop (r : TarReader) : ∀ {fs : FileSystem}, fs.node dir = some .dir →
    KeptOutside dir fs (untarLoop dir r fs).2 := by
  induction r with
  | eof => exact fun hdir => ⟨hdir, fun _ _ => rfl⟩
  | broken err => exact fun hdir => ⟨hdir, fun _ _ => rfl⟩
  | entry hdr body rest ih =>
      intro fs hdir
      have hentry := keptOutside_untarEntry hdir hdr body
      rw [untarLoop]
      split
      · rename_i hout
        rwa [hout] at hentry
      · rename_i hout
        rw [hout] at hentry
        exact hentry.trans (ih hentry.1)
  | cut hdr body err =>
      intro fs hdir
      have hentry := keptOutside_untarEntry hdir hdr body
      rw [untarLoop]
      split
      · rename_i hout
        rwa [hout] at hentry
      · rename_i hout
        rwa [hout] at hentry

/-- **Contained.**  Whatever is in the archive, and whether `untarDir` succeeds or not: what does
not stand below `dir` is as it was, except that missing directories above `dir` are made. -/
theorem untarDir_contained (r : TarReader) (dir : Path) (fs : FileSystem) (p : Path)
    (hp : ¬ dir <+: p) :
    (untarDir r dir fs).2.node p = fs.node p ∨
      p <+: dir ∧ fs.node p = none ∧ (untarDir r dir fs).2.node p = some .dir := by
  rw [untarDir]
  cases hmk : fs.mkdirAll dir with
  | error e => exact Or.inl rfl
  | ok fs₁ =>
      have hnode := FileSystem.mkdirAll_ok hmk
      have hdir : fs₁.node dir = some .dir := by rw [hnode, if_pos List.prefix_rfl]
      have hout := (keptOutside_untarLoop r hdir).2 p hp
      rw [hnode] at hout
      split at hout
      · rename_i habove
        match hold : fs.node p with
        | none => exact Or.inr ⟨habove, rfl, hout⟩
        | some .dir => exact Or.inl hout
        | some (.file b) => exact absurd hold (FileSystem.mkdirAll_free hmk habove b)
      · exact Or.inl hout

/-- An entry `../x`. -/
def upward : TarReader := .entry ⟨[0x2e, 0x2e, 0x2f, 0x78], false⟩ [1] .eof

/-- It is written below the directory, not beside it. -/
theorem upward_stays_below :
    (untarDir upward [[0x64]] .empty).2.node [[0x78]] = none ∧
      (untarDir upward [[0x64]] .empty).2.node [[0x64], [0x78]] = some (.file [1]) := by
  refine ⟨?_, by decide +kernel⟩
  rcases untarDir_contained upward [[0x64]] .empty [[0x78]] (by decide) with h | ⟨h, -⟩
  · exact h.trans (FileSystem.node_empty _)
  · exact absurd h (by decide)

/-! ## There and back -/

/-- At or below `p`, seen from `src`, there is a file. -/
def HoldsFile (fs : FileSystem) (src p : Path) : Prop :=
  ∃ q b, fs.node (src ++ (p ++ q)) = some (.file b)

/-- Below `dst` stand the files `done` of `src`, in their directories, and nothing else. -/
structure Copied (fs : FileSystem) (src dst : Path) (done : List (Path × Bytes))
    (host : FileSystem) : Prop where
  files : ∀ e ∈ done, fs.node (src ++ e.1) = some (.file e.2)
  node : ∀ p, host.node (dst ++ p) =
    if p = [] ∨ ∃ e ∈ done, p <+: e.1 then fs.node (src ++ p) else none

variable {src dst : Path} {host : FileSystem} {done : List (Path × Bytes)}

theorem Copied.entry (h : Copied fs src dst done host) (hsrc : fs.node src = some .dir)
    {e : Path × Bytes} (he : fs.node (src ++ e.1) = some (.file e.2)) :
    ∃ host', untarEntry dst ⟨join e.1, false⟩ e.2 host = (none, host') ∧
      Copied fs src dst (done ++ [e]) host' := by
  obtain ⟨path, body⟩ := e
  have hnames : ∀ c ∈ path, IsName c := fun c hc =>
    FileSystem.isName_of_node he c (List.mem_append_right src hc)
  obtain ⟨q, c, rfl⟩ : ∃ q c, path = q ++ [c] := by
    rcases List.eq_nil_or_concat path with rfl | ⟨q, c, hpath⟩
    · rw [List.append_nil, hsrc] at he
      cases he
    · exact ⟨q, c, hpath.trans List.concat_eq_append⟩
  -- what the file stands in, there and here
  have habove : ∀ r, r <+: q → fs.node (src ++ r) = some .dir := by
    rintro r ⟨t, rfl⟩
    rw [List.append_assoc, ← List.append_assoc] at he
    exact FileSystem.node_dir_of_append he (List.append_ne_nil_of_right_ne_nil t (by simp))
  have hdst : host.node dst = some .dir := by
    have := h.node []
    rwa [List.append_nil, List.append_nil, if_pos (Or.inl rfl), hsrc] at this
  have hfree : ∀ r b, r <+: dst ++ q → host.node r ≠ some (.file b) := by
    intro r b hr
    rcases List.prefix_or_prefix_of_prefix hr (List.prefix_append dst q) with hrd | hdr
    · simp [FileSystem.node_dir_above hdst hrd]
    · obtain ⟨t, rfl⟩ := hdr
      have ht : t <+: q := (List.prefix_append_right_inj dst).mp hr
      rw [h.node, habove t ht]
      split <;> simp
  have hdirNames : ∀ d ∈ dst ++ q, IsName d := by
    intro d hd
    rcases List.mem_append.mp hd with hd | hd
    · exact FileSystem.isName_of_node hdst d hd
    · exact hnames d (List.mem_append_left [c] hd)
  obtain ⟨host₁, hmk⟩ := FileSystem.exists_mkdirAll hdirNames hfree
  have hnode₁ := FileSystem.mkdirAll_ok hmk
  have hnot : ¬ dst ++ q ++ [c] <+: dst ++ q := not_append_above (List.cons_ne_nil c []) _
  have hfile : host₁.node (dst ++ q ++ [c]) ≠ some .dir := by
    rw [hnode₁, if_neg hnot, List.append_assoc, h.node, he]
    split <;> simp
  obtain ⟨host₂, hwrite⟩ := FileSystem.exists_writeFile body (hnames c (by simp))
    (by rw [hnode₁, if_pos List.prefix_rfl] : host₁.node (dst ++ q) = some .dir) hfile
  have hnode₂ := (FileSystem.writeFile_ok hwrite).2
  refine ⟨host₂, ?_, ?_⟩
  · have htarget : (dst ++ (q ++ [c])).dropLast = dst ++ q := by
      rw [← List.append_assoc, List.dropLast_concat]
    simp only [untarEntry, clean_join hnames, htarget, hmk, Bool.false_eq_true, if_false]
    rw [← List.append_assoc, hwrite]
  · refine ⟨?_, fun p => ?_⟩
    · intro e' he'
      rcases List.mem_append.mp he' with he' | he'
      · exact h.files e' he'
      · rw [List.mem_singleton.mp he']
        exact he
    · rw [hnode₂, hnode₁, List.append_assoc, h.node]
      simp only [List.append_cancel_left_eq, List.prefix_append_right_inj, List.mem_append,
        List.mem_singleton, or_and_right, exists_or, exists_eq_left, List.prefix_concat_iff]
      by_cases hp : p = q ++ [c]
      · rw [if_pos hp, if_pos (Or.inr (Or.inr (Or.inl hp))), hp, he]
      · by_cases hpq : p <+: q
        · rw [if_neg hp, if_pos hpq, if_pos (Or.inr (Or.inr (Or.inr hpq))), habove p hpq]
        · simp only [hp, hpq, or_false, if_false]

theorem Copied.loop (hsrc : fs.node src = some .dir) (entries : List (Path × Bytes)) :
    ∀ {done : List (Path × Bytes)} {host : FileSystem}, Copied fs src dst done host →
    (∀ e ∈ entries, fs.node (src ++ e.1) = some (.file e.2)) →
    ∃ host', untarLoop dst (.ofEntries (entries.map fun e => (⟨join e.1, false⟩, e.2))) host =
      (none, host') ∧ Copied fs src dst (done ++ entries) host' := by
  induction entries with
  | nil =>
      intro done host h _
      exact ⟨host, rfl, by rwa [List.append_nil]⟩
  | cons e entries ih =>
      intro done host h hfiles
      obtain ⟨host₁, hentry, hcopied⟩ := h.entry hsrc (hfiles e List.mem_cons_self)
      obtain ⟨host', hloop, hall⟩ := ih hcopied fun e' he' => hfiles e' (List.mem_cons_of_mem e he')
      refine ⟨host', ?_, ?_⟩
      · rw [List.map_cons, TarReader.ofEntries, List.foldr_cons, untarLoop, hentry]
        exact hloop
      · rwa [List.append_assoc, List.singleton_append] at hall

theorem exists_untarDir (hsrc : fs.node src = some .dir) {entries : List (TarHeader × Bytes)}
    (htar : tarDir fs src = .ok entries) (hroom : ∃ host₁, host.mkdirAll dst = .ok host₁)
    (hempty : ∀ p, p ≠ [] → host.node (dst ++ p) = none) :
    ∃ host', untarDir (.ofEntries entries) dst host = (none, host') ∧
      Copied fs src dst (fs.files src) host' := by
  rw [tarDir, hsrc] at htar
  cases htar
  obtain ⟨host₁, hmk⟩ := hroom
  have hstart : Copied fs src dst [] host₁ := by
    refine ⟨fun e he => absurd he List.not_mem_nil, fun p => ?_⟩
    rw [FileSystem.mkdirAll_ok hmk]
    by_cases hp : p = []
    · rw [hp, List.append_nil, List.append_nil, if_pos List.prefix_rfl, if_pos (Or.inl rfl), hsrc]
    · simp [hp, not_append_above hp dst, hempty]
  obtain ⟨host', hloop, hcopied⟩ := hstart.loop hsrc (fs.files src) fun e he =>
    FileSystem.mem_files.mp he
  refine ⟨host', ?_, hcopied⟩
  rw [untarDir, hmk]
  exact hloop

/-- **There and back.**  An archive of the directory `src` is unpacked without error at any place
where a directory can be made and nothing stands below it.  What is there afterwards is what is
below `src`, without the directories that hold no file: so all of it exactly if there is no such
directory. -/
theorem untarDir_tarDir (hsrc : fs.node src = some .dir)
    (hroom : ∃ host₁, host.mkdirAll dst = .ok host₁)
    (hempty : ∀ p, p ≠ [] → host.node (dst ++ p) = none) :
    ∃ entries host', tarDir fs src = .ok entries ∧
      untarDir (.ofEntries entries) dst host = (none, host') ∧
      (∀ p, p = [] ∨ HoldsFile fs src p → host'.node (dst ++ p) = fs.node (src ++ p)) ∧
      (∀ p, ¬ (p = [] ∨ HoldsFile fs src p) → host'.node (dst ++ p) = none) ∧
      ((∀ p, host'.node (dst ++ p) = fs.node (src ++ p)) ↔
        ∀ p, fs.node (src ++ p) = some .dir → p = [] ∨ HoldsFile fs src p) := by
  obtain ⟨entries, htar⟩ : ∃ entries, tarDir fs src = .ok entries := by
    rw [tarDir, hsrc]
    exact ⟨_, rfl⟩
  obtain ⟨host', huntar, hcopied⟩ := exists_untarDir hsrc htar hroom hempty
  have hholds : ∀ p, (∃ e ∈ fs.files src, p <+: e.1) ↔ HoldsFile fs src p := by
    intro p
    constructor
    · rintro ⟨⟨r, b⟩, he, q, rfl⟩
      exact ⟨q, b, FileSystem.mem_files.mp he⟩
    · rintro ⟨q, b, hfile⟩
      exact ⟨(p ++ q, b), FileSystem.mem_files.mpr hfile, List.prefix_append p q⟩
  have hheld : ∀ p, p = [] ∨ HoldsFile fs src p → host'.node (dst ++ p) = fs.node (src ++ p) := by
    intro p hp
    rw [hcopied.node, if_pos (hp.imp_right (hholds p).mpr)]
  have hbare : ∀ p, ¬ (p = [] ∨ HoldsFile fs src p) → host'.node (dst ++ p) = none := by
    intro p hp
    rw [hcopied.node, if_neg fun h => hp (h.imp_right (hholds p).mp)]
  refine ⟨entries, host', htar, huntar, hheld, hbare, ?_⟩
  constructor
  · intro hall p hdir
    by_contra hnone
    have := hall p
    rw [hbare p hnone, hdir] at this
    cases this
  · intro hall p
    by_cases hp : p = [] ∨ HoldsFile fs src p
    · exact hheld p hp
    · rw [hbare p hp]
      match hnode : fs.node (src ++ p) with
      | none => rfl
      | some .dir => exact absurd (hall p hnode) hp
      | some (.file b) => exact absurd (Or.inr ⟨[], b, by rwa [List.append_nil]⟩) hp

/-- `/s/a/f` and the empty directory `/s/e`. -/
def twoDirs : FileSystem :=
  let made := do
    let fs ← FileSystem.empty.mkdirAll [[0x73], [0x61]]
    let fs ← fs.writeFile [[0x73], [0x61], [0x66]] [7]
    fs.mkdirAll [[0x73], [0x65]]
  match made with
  | .ok fs => fs
  | .error _ => .empty

/-- Unpacked on an empty host, the file is there and the empty directory is not. -/
theorem empty_dir_left_behind :
    ∃ entries host', tarDir twoDirs [[0x73]] = .ok entries ∧
      untarDir (.ofEntries entries) [[0x74]] .empty = (none, host') ∧
      host'.node [[0x74], [0x61], [0x66]] = some (.file [7]) ∧
      twoDirs.node [[0x73], [0x65]] = some .dir ∧ host'.node [[0x74], [0x65]] = none := by
  have hsrc : twoDirs.node [[0x73]] = some .dir := by decide +kernel
  have hroom : ∃ host₁, FileSystem.empty.mkdirAll [[0x74]] = .ok host₁ := ⟨_, rfl⟩
  have hempty : ∀ p, p ≠ [] → FileSystem.empty.node ([[0x74]] ++ p) = none := by
    intro p _
    simp [FileSystem.node_empty]
  obtain ⟨entries, host', htar, huntar, hheld, hbare, -⟩ := untarDir_tarDir hsrc hroom hempty
  refine ⟨entries, host', htar, huntar, ?_, by decide +kernel, ?_⟩
  · refine (hheld [[0x61], [0x66]] (Or.inr ⟨[], [7], ?_⟩)).trans ?_
    · decide +kernel
    · decide +kernel
  · refine hbare [[0x65]] ?_
    rintro (hnil | ⟨q, b, hfile⟩)
    · cases hnil
    · have hfiles : twoDirs.files [[0x73]] = [([[0x61], [0x66]], [7])] := by decide +kernel
      have hmem := FileSystem.mem_files.mpr hfile
      rw [hfiles] at hmem
      simp at hmem

end Dpx
