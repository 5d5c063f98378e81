import Mathlib.Data.List.TakeWhile
import Shader.Command.Disk

/-!
# What a write does to the other files

A path is a directory, up to its last slash, and a name in it. Two paths with the same directory and
different names do not lead to the same file: the only names that lead back to somewhere else are
those of directories, and no file is written in the place of one.

So writing a file changes what is at one place, and the path it was written to reads back what was
written.
-/

namespace Shader

namespace Path

/-! ## Directory and name -/

/-- A path up to a slash, or nothing. -/
def IsDirectory (front : Bytes) : Prop := front = [] ∨ ∃ rest, front = rest ++ [byte '/']

theorem parent_append_base (path : Bytes) : parent path ++ base path = path := by
  rw [parent, base, ← List.reverse_append, List.takeWhile_append_dropWhile, List.reverse_reverse]

theorem slash_notMem_base (path : Bytes) : byte '/' ∉ base path := by
  intro h
  have := List.mem_takeWhile_imp (List.mem_reverse.mp h)
  simp at this

/-- The directory of a path ends with a slash, unless there is none. -/
theorem isDirectory_parent (path : Bytes) : IsDirectory (parent path) := by
  rw [parent]
  cases h : path.reverse.dropWhile (· != byte '/') with
  | nil => exact .inl rfl
  | cons b rest =>
    have hb : ¬(b != byte '/') = true := by
      have := List.head?_dropWhile_not (· != byte '/') path.reverse
      rw [h] at this
      simpa using this
    have hb : b = byte '/' := by simpa using hb
    exact .inr ⟨rest.reverse, by rw [hb, List.reverse_cons]⟩

theorem names_of_notMem {name : Bytes} (h : byte '/' ∉ name) : names name = [name] := by
  induction name with
  | nil => rfl
  | cons b rest ih =>
    rw [List.mem_cons, not_or] at h
    rw [names, if_neg fun heq => h.1 heq.symm, ih h.2]

theorem names_ne_nil (path : Bytes) : names path ≠ [] := by
  cases path with
  | nil => exact List.cons_ne_nil _ _
  | cons b rest =>
    rw [names]
    split
    · exact List.cons_ne_nil _ _
    · split <;> exact List.cons_ne_nil _ _

/-- A slash separates the names in front of it from those behind. -/
theorem names_append_slash (front rest : Bytes) :
    names (front ++ byte '/' :: rest) = names front ++ names rest := by
  induction front with
  | nil =>
    show names (byte '/' :: rest) = [] :: names rest
    exact if_pos rfl
  | cons b front ih =>
    rw [List.cons_append, names, names]
    by_cases hb : b = byte '/'
    · rw [if_pos hb, if_pos hb, ih, List.cons_append]
    · rw [if_neg hb, if_neg hb, ih]
      obtain ⟨name, more, hnames⟩ := List.exists_cons_of_ne_nil (names_ne_nil front)
      rw [hnames]
      rfl

section Join

variable {front name : Bytes}

/-- The names of a path are those of its directory and its own. -/
theorem names_append (hfront : IsDirectory front) (hname : byte '/' ∉ name) :
    names (front ++ name) = (names front).dropLast ++ [name] := by
  rcases hfront with rfl | ⟨rest, rfl⟩
  · rw [List.nil_append, names_of_notMem hname]
    rfl
  · rw [List.append_assoc, List.singleton_append, names_append_slash, names_of_notMem hname,
      names_append_slash]
    show _ = (names rest ++ [[]]).dropLast ++ [name]
    rw [List.dropLast_concat]

/-- **The names of a path are those of its directory, and its own.** The directory ends with a
slash, so its last name is empty and falls away. -/
theorem names_eq (path : Bytes) : names path = (names (parent path)).dropLast ++ [base path] := by
  have h := names_append (isDirectory_parent path) (slash_notMem_base path)
  rwa [parent_append_base] at h

theorem dropLast_names (path : Bytes) : (names path).dropLast = (names (parent path)).dropLast := by
  rw [names_eq path, List.dropLast_concat]

theorem getLast?_names (path : Bytes) : (names path).getLast? = some (base path) := by
  rw [names_eq path, List.getLast?_concat]

/-- A directory and a name make up a path with just these parts. -/
theorem base_append (hfront : IsDirectory front) (hname : byte '/' ∉ name) :
    base (front ++ name) = name := by
  have hlast := getLast?_names (front ++ name)
  rw [names_append hfront hname, List.getLast?_concat] at hlast
  exact (Option.some.inj hlast).symm

/-- A directory and a name in it can be told apart again. -/
theorem parent_append (hfront : IsDirectory front) (hname : byte '/' ∉ name) :
    parent (front ++ name) = front := by
  have h := parent_append_base (front ++ name)
  rw [base_append hfront hname] at h
  exact List.append_cancel_right h

end Join

/-! ## Extensions -/

/-- The extension is within the name: a dot further ahead, in a directory, does not count. -/
theorem ext_suffix (path : Bytes) : ext path <:+ base path := by
  unfold ext
  dsimp only
  split
  · rename_i hdot
    have hdot : byte '.' ∈ (base path).reverse := by simpa using hdot
    -- behind what has no dot, from the end, stands the last dot
    have hsplit := List.takeWhile_append_dropWhile (p := (· != byte '.')) (l := (base path).reverse)
    cases hdrop : (base path).reverse.dropWhile (· != byte '.') with
    | nil =>
      rw [hdrop, List.append_nil] at hsplit
      rw [← hsplit] at hdot
      have := List.mem_takeWhile_imp hdot
      simp at this
    | cons b rest =>
      have hb : b = byte '.' := by
        have := List.head?_dropWhile_not (· != byte '.') (base path).reverse
        rw [hdrop] at this
        simpa using this
      rw [hdrop, hb] at hsplit
      refine ⟨rest.reverse, ?_⟩
      have := congrArg List.reverse hsplit
      rw [List.reverse_append, List.reverse_reverse, List.reverse_cons, List.append_assoc,
        List.singleton_append] at this
      exact this
  · exact List.nil_suffix

theorem stem_append_ext (path : Bytes) : stem path ++ ext path = path := by
  have hsuffix : ext path <:+ path :=
    (ext_suffix path).trans ⟨parent path, parent_append_base path⟩
  obtain ⟨front, hfront⟩ := hsuffix
  have hlen : path.length - (ext path).length = front.length := by
    have := congrArg List.length hfront
    rw [List.length_append] at this
    omega
  calc stem path ++ ext path = path.take front.length ++ ext path := by rw [stem, hlen]
    _ = (front ++ ext path).take front.length ++ ext path := by rw [hfront]
    _ = path := by rw [List.take_left, hfront]

/-- An extension is part of the name, so the directory is part of the stem. -/
theorem stem_eq (path : Bytes) :
    ∃ name, stem path = parent path ++ name ∧ base path = name ++ ext path := by
  obtain ⟨name, hname⟩ := ext_suffix path
  refine ⟨name, ?_, hname.symm⟩
  have hsame : stem path ++ ext path = parent path ++ name ++ ext path := by
    rw [stem_append_ext, List.append_assoc, hname, parent_append_base]
  exact List.append_cancel_right hsame

theorem assemblyExt_ne_nil : assemblyExt ≠ [] := by decide

/-- Without a path that was asked for, assembly is not written where the source is. -/
theorem assemblyOutput_ne (wanted source : Bytes) : assemblyOutput [] wanted source ≠ source := by
  rw [assemblyOutput, if_neg (not_not.mpr rfl)]
  dsimp only
  have hwritten : (if wanted = [] then assemblyExt else wanted) ≠ [] := by
    split
    · exact assemblyExt_ne_nil
    · assumption
  generalize (if wanted = [] then assemblyExt else wanted) = written at hwritten
  intro h
  by_cases hext : ext source = written
  · rw [if_pos hext] at h
    exact hwritten (List.append_right_eq_self.mp h)
  · rw [if_neg hext] at h
    have hsame : stem source ++ ext source = stem source ++ written := by rw [h, stem_append_ext]
    exact hext (List.append_cancel_left hsame)

/-- `Extended path front e`: the path is `front` and behind it the extension `e`, which begins at
the last dot of the path's name. A name without a dot has no extension. -/
inductive Extended : Bytes → Bytes → Bytes → Prop where
  | plain {dir name : Bytes} : IsDirectory dir → byte '/' ∉ name → byte '.' ∉ name →
      Extended (dir ++ name) (dir ++ name) []
  | dotted {front rest : Bytes} : byte '/' ∉ rest → byte '.' ∉ rest →
      Extended (front ++ byte '.' :: rest) front (byte '.' :: rest)

theorem Extended.append_eq {path front e : Bytes} (h : Extended path front e) :
    front ++ e = path := by
  cases h with
  | plain => exact List.append_nil _
  | dotted => rfl

/-- **There is one way to cut a path into stem and extension.** -/
theorem Extended.ext_eq {path front e : Bytes} (h : Extended path front e) : ext path = e := by
  cases h with
  | @plain dir name hdir hslash hdot =>
    rw [ext, base_append hdir hslash]
    exact if_neg (by simpa using hdot)
  | @dotted _ rest hslash hdot =>
    have hname : byte '/' ∉ base front ++ byte '.' :: rest := by
      rw [List.mem_append, List.mem_cons, not_or, not_or]
      exact ⟨slash_notMem_base front, by decide, hslash⟩
    have hpath : front ++ byte '.' :: rest =
        parent front ++ (base front ++ byte '.' :: rest) := by
      rw [← List.append_assoc, parent_append_base]
    rw [hpath, ext, base_append (isDirectory_parent front) hname]
    refine (if_pos (by simp)).trans ?_
    -- from the end, the first dot is the one behind which `rest` stands
    rw [List.reverse_append, List.reverse_cons, List.append_assoc,
      List.takeWhile_append_of_pos fun b hb => ?_]
    · simp
    · rw [bne_iff_ne]
      rintro rfl
      exact hdot (List.mem_reverse.mp hb)

theorem extended_stem_ext (path : Bytes) : Extended path (stem path) (ext path) := by
  by_cases hdot : byte '.' ∈ base path
  · have hext : ext path = byte '.' :: ((base path).reverse.takeWhile (· != byte '.')).reverse :=
      if_pos (by simpa using hdot)
    have hpath := stem_append_ext path
    have hslash := slash_notMem_base path
    obtain ⟨name, hname⟩ := ext_suffix path
    rw [← hname, List.mem_append, not_or] at hslash
    rw [hext] at hpath hslash ⊢
    have hrest := fun h => hslash.2 (List.mem_cons_of_mem _ h)
    have h : Extended (stem path ++ _) (stem path) _ := .dotted hrest fun h => by
      have := List.mem_takeWhile_imp (List.mem_reverse.mp h)
      simp at this
    rwa [hpath] at h
  · have hext : ext path = [] := if_neg (by simpa using hdot)
    have hstem : stem path = path := by
      have h := stem_append_ext path
      rwa [hext, List.append_nil] at h
    have h := Extended.plain (isDirectory_parent path) (slash_notMem_base path) hdot
    rw [parent_append_base] at h
    rwa [hext, hstem]

theorem extended_iff {path front e : Bytes} :
    Extended path front e ↔ front = stem path ∧ e = ext path := by
  constructor
  · intro h
    have hext := h.ext_eq.symm
    refine ⟨?_, hext⟩
    have hsame : front ++ ext path = stem path ++ ext path := by
      rw [stem_append_ext, ← hext, h.append_eq]
    exact List.append_cancel_right hsame
  · rintro ⟨rfl, rfl⟩
    exact extended_stem_ext path

/-- The path of the output begins as that of the source does. -/
theorem stem_prefix_assemblyOutput (wanted source : Bytes) :
    stem source <+: assemblyOutput [] wanted source := by
  rw [assemblyOutput, if_neg (not_not.mpr rfl)]
  dsimp only
  generalize (if wanted = [] then assemblyExt else wanted) = written
  split
  · exact List.IsPrefix.trans ⟨ext source, stem_append_ext source⟩ (List.prefix_append _ _)
  · exact List.prefix_append _ _

/-- **Assembly is not written over its source.** Whatever the name of the source and whatever
extension is wanted, without a path that was asked for the output is named as the source is up to
its extension, and not as the source. -/
theorem assemblyOutput_apart (wanted source : Bytes) :
    (∀ front e, Extended source front e ↔ front = stem source ∧ e = ext source) ∧
      stem source <+: assemblyOutput [] wanted source ∧
      assemblyOutput [] wanted source ≠ source :=
  ⟨fun _ _ => extended_iff, stem_prefix_assemblyOutput wanted source,
    assemblyOutput_ne wanted source⟩

example : assemblyOutput [] (ascii "p") (ascii "dir.d/.p") = ascii "dir.d/p" := by decide

/-- A dump does not replace its source, unless that has the extension of dumps already. -/
theorem treeOutput_ne {source : Bytes} (hext : ext source ≠ ascii ".parsed") :
    treeOutput source ≠ source := by
  intro h
  have hsame : stem source ++ ext source = treeOutput source := by rw [stem_append_ext, h]
  exact hext (List.append_cancel_left hsame)

/-! ## Next to a path -/

/-- A path with the same directory and another name. -/
structure Beside (source output : Bytes) : Prop where
  parent : parent output = parent source
  base : base output ≠ base source

/-- Of two paths in one directory that differ, the names differ. -/
theorem beside_of_ne {source output : Bytes} (name : Bytes)
    (hout : output = Path.parent source ++ name) (hslash : byte '/' ∉ name)
    (hne : output ≠ source) : Beside source output := by
  have hdir := isDirectory_parent source
  subst hout
  have hbase := base_append hdir hslash
  refine ⟨parent_append hdir hslash, ?_⟩
  intro heq
  rw [hbase] at heq
  exact hne (by rw [heq, parent_append_base])

theorem slash_notMem_stem {source name : Bytes} (h : Path.base source = name ++ ext source) :
    byte '/' ∉ name := fun hmem =>
  slash_notMem_base source (by rw [h]; exact List.mem_append_left _ hmem)

/-- The dump is next to its source, under another name. -/
theorem beside_treeOutput {source : Bytes} (hext : ext source ≠ ascii ".parsed") :
    Beside source (treeOutput source) := by
  obtain ⟨name, hstem, hbase⟩ := stem_eq source
  refine beside_of_ne (name ++ ascii ".parsed") ?_ ?_ (treeOutput_ne hext)
  · rw [treeOutput, hstem, List.append_assoc]
  · rw [List.mem_append, not_or]
    exact ⟨slash_notMem_stem hbase, by decide⟩

/-- So is the compiled program. With a slash in the extension that is asked for, it could be in
another directory. -/
theorem beside_assemblyOutput {wanted : Bytes} (hslash : byte '/' ∉ wanted) (source : Bytes) :
    Beside source (assemblyOutput [] wanted source) := by
  have hne := assemblyOutput_ne wanted source
  rw [assemblyOutput, if_neg (not_not.mpr rfl)] at hne ⊢
  dsimp only at hne ⊢
  generalize hext : (if wanted = [] then assemblyExt else wanted) = written at hne ⊢
  have hwritten : byte '/' ∉ written := by
    subst hext
    split
    · decide
    · exact hslash
  by_cases h : ext source = written
  · rw [if_pos h] at hne ⊢
    refine beside_of_ne (Path.base source ++ written) ?_ ?_ hne
    · rw [← List.append_assoc, parent_append_base]
    · rw [List.mem_append, not_or]
      exact ⟨slash_notMem_base source, hwritten⟩
  · rw [if_neg h] at hne ⊢
    obtain ⟨name, hstem, hbase⟩ := stem_eq source
    refine beside_of_ne (name ++ written) ?_ ?_ hne
    · rw [hstem, List.append_assoc]
    · rw [List.mem_append, not_or]
      exact ⟨slash_notMem_stem hbase, hwritten⟩

end Path

/-! ## Following a path -/

namespace Place

variable {p q : Place} {name : Bytes}

/-- The names that lead to a directory wherever they are followed: none, one dot and two. -/
def IsRelative (name : Bytes) : Prop := name = [] ∨ name = ascii "." ∨ name = ascii ".."

/-- A name that is not relative leads one step down. -/
theorem enter_of_not_isRelative (h : ¬IsRelative name) : p.enter name = p ++ [name] := by
  rw [IsRelative, not_or, not_or] at h
  rw [enter, if_neg (not_or.mpr ⟨h.1, h.2.1⟩), if_neg h.2.2]

/-- Whether a path begins at the root or in the working directory shows in its directory. -/
theorem start_eq (path : Bytes) : start path = start (Path.parent path) := by
  have hsplit := Path.parent_append_base path
  rcases Path.isDirectory_parent path with hdir | ⟨rest, hdir⟩
  · -- without a directory the path is a name, which has no slash
    rw [hdir, List.nil_append] at hsplit
    have hslash := Path.slash_notMem_base path
    rw [hsplit] at hslash
    have hhead : path.head? ≠ some (byte '/') := fun h => hslash (List.mem_of_mem_head? h)
    rw [hdir, start, if_neg hhead]
    rfl
  · have hhead : path.head? = (Path.parent path).head? := by
      have hne : Path.parent path ≠ [] := by simp [hdir]
      obtain ⟨b, more, hparent⟩ := List.exists_cons_of_ne_nil hne
      rw [← hsplit, Path.parent_append (Path.isDirectory_parent path) (Path.slash_notMem_base path),
        hparent]
      rfl
    rw [start, start, hhead]

end Place

namespace Disk

variable {d d' : Disk} {p q dir : Place} {name path content : Bytes} {e : Entry}

/-- A place that can be left again: it and the places it stands in are directories. -/
def Rooted (d : Disk) (p : Place) : Prop := ∀ q, q <+: p → d.entry? q = some .directory

theorem entry?_of_isGiven (d : Disk) (h : p.isGiven = true) : d.entry? p = some .directory :=
  if_pos h

/-- One can begin at directories only. -/
theorem rooted_start (d : Disk) (path : Bytes) : Rooted d (Place.start path) := by
  intro q hq
  apply entry?_of_isGiven
  rw [Place.start] at hq
  split at hq
  · rcases List.prefix_cons_iff.mp hq with rfl | ⟨rest, rfl, hrest⟩
    · rfl
    · rw [List.prefix_nil.mp hrest]
      decide
  · rw [List.prefix_nil.mp hq]
    rfl

/-- A relative name leads up or nowhere, to a directory in each case. -/
theorem Rooted.enter_of_isRelative (h : Rooted d p) (hname : Place.IsRelative name) :
    Rooted d (p.enter name) := by
  rcases hname with rfl | rfl | rfl
  · exact h
  · exact h
  · intro q hq
    rw [Place.enter, if_neg (by decide), if_pos rfl] at hq
    by_cases hroot : p = Place.root
    · rw [if_pos hroot] at hq
      exact h q hq
    · rw [if_neg hroot] at hq
      by_cases habove : p.isAbove = true
      · rw [if_pos habove] at hq
        rcases List.prefix_concat_iff.mp hq with rfl | hq
        · -- further up is a directory too
          have hup : Place.isAbove (p ++ [ascii ".."]) = true := by
            rw [Place.isAbove] at habove ⊢
            rw [List.all_append, habove]
            rfl
          apply entry?_of_isGiven
          rw [Place.isGiven, hup, Bool.true_or, Bool.true_or]
        · exact h q hq
      · rw [if_neg habove] at hq
        exact h q (hq.trans (List.dropLast_prefix p))

/-- A step to a directory keeps to directories. -/
theorem Rooted.enter (h : Rooted d p) (hname : d.entry? (p.enter name) = some .directory) :
    Rooted d (p.enter name) := by
  by_cases hrel : Place.IsRelative name
  · exact h.enter_of_isRelative hrel
  · intro q hq
    rw [Place.enter_of_not_isRelative hrel] at hq hname
    rcases List.prefix_concat_iff.mp hq with rfl | hq
    · exact hname
    · exact h q hq

/-- What is no directory has a name of its own, so two names that lead there are the same. -/
theorem Rooted.enter_inj (h : Rooted d p) (hname : d.entry? (p.enter name) ≠ some .directory)
    {other : Bytes} (heq : p.enter other = p.enter name) : other = name := by
  have hrel : ∀ {n : Bytes}, d.entry? (p.enter n) ≠ some .directory → ¬Place.IsRelative n :=
    fun hn hr => hn (h.enter_of_isRelative hr _ (List.prefix_refl _))
  have hother : ¬Place.IsRelative other := hrel (heq ▸ hname)
  rw [Place.enter_of_not_isRelative hother, Place.enter_of_not_isRelative (hrel hname)] at heq
  exact List.singleton_inj.mp (List.append_cancel_left heq)

/-- A step succeeds if the name is not too long and something is there. -/
theorem step_eq_ok :
    d.step p name = .ok e ↔ name.length ≤ nameLimit ∧ d.entry? (p.enter name) = some e := by
  rw [step]
  by_cases hlen : nameLimit < name.length
  · rw [if_pos hlen]
    constructor
    · intro h
      cases h
    · intro h
      exact absurd h.1 (Nat.not_le.mpr hlen)
  · rw [if_neg hlen]
    cases d.entry? (p.enter name) with
    | none => simp
    | some e' => simp [Nat.not_lt.mp hlen]

theorem step_eq_missing (h : d.step p name = .error .missing) :
    name.length ≤ nameLimit ∧ d.entry? (p.enter name) = none := by
  rw [step] at h
  by_cases hlen : nameLimit < name.length
  · rw [if_pos hlen] at h
    cases h
  · rw [if_neg hlen] at h
    cases hentry : d.entry? (p.enter name) with
    | none => exact ⟨Nat.not_lt.mp hlen, rfl⟩
    | some e =>
      rw [hentry] at h
      cases h

theorem walk_cons_eq_ok {names : List Bytes} (h : d.walk p (name :: names) = .ok q) :
    d.step p name = .ok .directory ∧ d.walk (p.enter name) names = .ok q := by
  rw [walk] at h
  split at h
  · cases h
  · cases h
  · exact ⟨‹_›, h⟩

/-- **Whoever follows a path stands in directories all the way.** -/
theorem Rooted.walk {names : List Bytes} (h : Rooted d p) (hwalk : d.walk p names = .ok q) :
    Rooted d q := by
  induction names generalizing p with
  | nil =>
    cases hwalk
    exact h
  | cons name names ih =>
    obtain ⟨hstep, hrest⟩ := walk_cons_eq_ok hwalk
    exact ih (h.enter (step_eq_ok.mp hstep).2) hrest

/-- A disk with all the directories of another one is walked in the same way. -/
theorem walk_mono (hdir : ∀ p, d.entry? p = some .directory → d'.entry? p = some .directory)
    {names : List Bytes} (h : d.walk p names = .ok q) : d'.walk p names = .ok q := by
  induction names generalizing p with
  | nil => exact h
  | cons name names ih =>
    obtain ⟨hstep, hrest⟩ := walk_cons_eq_ok h
    obtain ⟨hlen, hentry⟩ := step_eq_ok.mp hstep
    rw [Disk.walk, step_eq_ok.mpr ⟨hlen, hdir _ hentry⟩]
    exact ih hrest

/-! ## Paths that can be read and written -/

theorem bind_eq_ok {ε β γ : Type} {x : Except ε β} {f : β → Except ε γ} {c : γ} :
    x >>= f = .ok c ↔ ∃ b, x = .ok b ∧ f b = .ok c := by
  cases x with
  | error e =>
    constructor
    · intro h
      cases h
    · rintro ⟨b, h, -⟩
      cases h
  | ok b =>
    constructor
    · intro h
      exact ⟨b, rfl, h⟩
    · rintro ⟨b', h, hf⟩
      cases h
      exact hf

/-- `d.Enters path dir`: the directory of the path is `dir`. -/
structure Enters (d : Disk) (path : Bytes) (dir : Place) : Prop where
  check : checkPath path = .ok ()
  walk : d.walk (Place.start path) (Path.names path).dropLast = .ok dir

theorem Enters.rooted (h : d.Enters path dir) : Rooted d dir := (rooted_start d path).walk h.walk

theorem Enters.mono (hdir : ∀ p, d.entry? p = some .directory → d'.entry? p = some .directory)
    (h : d.Enters path dir) : d'.Enters path dir := ⟨h.check, walk_mono hdir h.walk⟩

theorem Enters.eq_of_parent {other : Bytes} {dir' : Place} (h : d.Enters path dir)
    (h' : d.Enters other dir') (heq : Path.parent other = Path.parent path) : dir' = dir := by
  have hwalk := h'.walk
  rw [Place.start_eq, Path.dropLast_names, heq, ← Path.dropLast_names, ← Place.start_eq,
    h.walk] at hwalk
  cases hwalk
  rfl

/-- **What a path reads**: the file of its name, in its directory. -/
theorem read_eq_ok :
    d.read path = .ok content ↔ ∃ dir, d.Enters path dir ∧ (Path.base path).length ≤ nameLimit ∧
      d.entry? (dir.enter (Path.base path)) = some (.file content) := by
  have hfind : d.read path = .ok content ↔ d.find path = .ok (.file content) := by
    rw [read]
    split <;> simp [*]
  rw [hfind, find]
  constructor
  · intro h
    obtain ⟨_, hcheck, h⟩ := bind_eq_ok.mp h
    obtain ⟨dir, hwalk, h⟩ := bind_eq_ok.mp h
    exact ⟨dir, ⟨hcheck, hwalk⟩, step_eq_ok.mp h⟩
  · rintro ⟨dir, henters, hstep⟩
    exact bind_eq_ok.mpr ⟨(), henters.check,
      bind_eq_ok.mpr ⟨dir, henters.walk, step_eq_ok.mpr hstep⟩⟩

theorem trimmed_of_snd {names : List Bytes} (h : trimmed path = (names, false)) :
    names = Path.names path := by
  obtain ⟨rfl, hlen⟩ := Prod.mk.inj h
  have hlen : ((Path.names path).reverse.dropWhile (· == [])).length =
      (Path.names path).length := by
    simpa using hlen
  have hsuffix := List.dropWhile_suffix (l := (Path.names path).reverse) (· == [])
  rw [hsuffix.eq_of_length (by rw [hlen, List.length_reverse]), List.reverse_reverse]

/-- Where a file can be written: in a directory, under a name that is not one of a directory. -/
theorem slot_eq_ok (h : d.slot path = .ok q) : ∃ dir, d.Enters path dir ∧
    q = dir.enter (Path.base path) ∧ (Path.base path).length ≤ nameLimit ∧
    d.entry? q ≠ some .directory := by
  obtain ⟨_, hcheck, h⟩ := bind_eq_ok.mp h
  generalize htrim : trimmed path = t at h
  obtain ⟨names, slash⟩ := t
  obtain ⟨dir, hwalk, h⟩ := bind_eq_ok.mp h
  cases slash with
  | true => cases h
  | false =>
    obtain rfl := trimmed_of_snd htrim
    have hlast : (Path.names path).getLast?.getD [] = Path.base path := by
      rw [Path.getLast?_names]
      rfl
    dsimp only at h
    rw [if_neg Bool.false_ne_true, hlast] at h
    refine ⟨dir, ⟨hcheck, hwalk⟩, ?_⟩
    -- a file that is there is replaced, and one that is not is made
    split at h
    · cases h
    · rename_i hstep
      cases h
      obtain ⟨hlen, hentry⟩ := step_eq_ok.mp hstep
      exact ⟨rfl, hlen, by simp [hentry]⟩
    · rename_i hstep
      cases h
      obtain ⟨hlen, hentry⟩ := step_eq_missing hstep
      exact ⟨rfl, hlen, by simp [hentry]⟩
    · cases h

/-! ## Writing -/

theorem lookup_filter_ne {entries : List (Place × Entry)} (h : p ≠ q) :
    (entries.filter (·.1 != q)).lookup p = entries.lookup p := by
  induction entries with
  | nil => rfl
  | cons entry entries ih =>
    obtain ⟨r, e⟩ := entry
    by_cases hr : r = q
    · subst hr
      rw [List.filter_cons_of_neg (by simp), ih, List.lookup_cons, beq_eq_false_iff_ne.mpr h]
    · rw [List.filter_cons_of_pos (by simpa using hr), List.lookup_cons, List.lookup_cons, ih]

/-- An entry is put at its place and at no other. -/
theorem entry?_insert_of_ne (h : p ≠ q) : Disk.entry? (d.insert q e) p = d.entry? p := by
  have hlookup : (d.insert q e).entries.lookup p = d.entries.lookup p := by
    show ((q, e) :: d.entries.filter (·.1 != q)).lookup p = _
    rw [List.lookup_cons, beq_eq_false_iff_ne.mpr h]
    exact lookup_filter_ne h
  unfold entry?
  rw [hlookup]

theorem entry?_insert_self (hgiven : p.isGiven = false) (hnull : p ≠ Place.nullDevice) :
    Disk.entry? (d.insert p e) p = some e := by
  unfold entry?
  rw [if_neg (by simp [hgiven]), if_neg hnull]
  show ((p, e) :: d.entries.filter (·.1 != p)).lookup p = _
  rw [List.lookup_cons, beq_self_eq_true]

section Write

variable (h : d.write path content = .ok d')

include h

/-- What a write does: nothing to the null device, and elsewhere it puts a file where it can be. -/
theorem write_eq_ok : ∃ q, d.slot path = .ok q ∧
    d' = if q = Place.nullDevice then d else d.insert q (.file content) := by
  obtain ⟨q, hslot, h⟩ := bind_eq_ok.mp h
  cases h
  exact ⟨q, hslot, rfl⟩

/-- **A write changes nothing but the place that its path leads to.** -/
theorem entry?_write_of_ne (hslot : d.slot path = .ok q) (hp : p ≠ q) :
    d'.entry? p = d.entry? p := by
  obtain ⟨q', hslot', rfl⟩ := write_eq_ok h
  cases hslot.symm.trans hslot'
  split
  · rfl
  · exact entry?_insert_of_ne hp

/-- There the content is found, unless it is the place that takes in everything. -/
theorem entry?_write_self (hslot : d.slot path = .ok q) (hnull : q ≠ Place.nullDevice) :
    d'.entry? q = some (.file content) := by
  obtain ⟨q', hslot', rfl⟩ := write_eq_ok h
  cases hslot.symm.trans hslot'
  rw [if_neg hnull]
  obtain ⟨dir, -, -, -, hentry⟩ := slot_eq_ok hslot
  have hgiven : Place.isGiven q = false := by
    rw [← Bool.not_eq_true]
    exact fun hgiven => hentry (entry?_of_isGiven d hgiven)
  exact entry?_insert_self hgiven hnull

/-- No directory makes way for a file. -/
theorem directory_write (hp : d.entry? p = some .directory) : d'.entry? p = some .directory := by
  obtain ⟨q, hslot, -⟩ := write_eq_ok h
  obtain ⟨dir, -, -, -, hentry⟩ := slot_eq_ok hslot
  have hne : p ≠ q := by
    rintro rfl
    exact hentry hp
  rw [entry?_write_of_ne h hslot hne, hp]

/-- What was written is read back, if the path does not lead to the null device. -/
theorem read_write_self (hslot : d.slot path = .ok q) (hnull : q ≠ Place.nullDevice) :
    d'.read path = .ok content := by
  obtain ⟨dir, henters, rfl, hlen, -⟩ := slot_eq_ok hslot
  exact read_eq_ok.mpr ⟨dir, henters.mono fun _ => directory_write h, hlen,
    entry?_write_self h hslot hnull⟩

/-- A file next to the one that is written keeps its content. -/
theorem read_write_beside {source text : Bytes} (hbeside : Path.Beside source path)
    (hread : d.read source = .ok text) : d'.read source = .ok text := by
  obtain ⟨q, hslot, -⟩ := write_eq_ok h
  obtain ⟨dir', henters', rfl, -, hentry'⟩ := slot_eq_ok hslot
  obtain ⟨dir, henters, hlen, hentry⟩ := read_eq_ok.mp hread
  obtain rfl := henters.eq_of_parent henters' hbeside.parent
  refine read_eq_ok.mpr ⟨dir', henters.mono fun _ => directory_write h, hlen, ?_⟩
  have hne : dir'.enter (Path.base source) ≠ dir'.enter (Path.base path) := by
    intro heq
    exact hbeside.base (henters.rooted.enter_inj (by simp [hentry]) heq.symm)
  rw [entry?_write_of_ne h hslot hne, hentry]

end Write

end Disk

end Shader
