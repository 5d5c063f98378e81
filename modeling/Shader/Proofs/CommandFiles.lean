import Shader.Command.Job
import Shader.Proofs.Files

/-!
# What the command does to the files

A job reads its source, and writes one file at its very end. Whatever goes wrong, be it in the
arguments, with the source or with the path of the output, goes wrong before that, so a job that
fails leaves the files as they were. A job that succeeds shows what it has written.

What a source is written next to is not the source itself, as long as its name is derived and not
given: assembly goes under another name than the source whatever the extension. The tree of a source
does so too, unless the source has the extension of trees.
-/

namespace Shader

namespace Job

variable {w w' : World} {ok : Bool} {path source t : Bytes} {s : Settings}

/-! ## How jobs end -/

/-- Nothing was written, and the job says so. -/
def Abandoned (w : World) (ok : Bool) (w' : World) : Prop := ok = false ∧ w'.disk = w.disk

/-- A text was written to a path and shown. -/
structure Delivered (path t : Bytes) (w : World) (ok : Bool) (w' : World) : Prop where
  succeeded : ok = true
  wrote : w.disk.write path t = .ok w'.disk
  showed : w'.out = w.out ++ t

theorem run_deliver (h : (deliver path t : StateM World Bool).run w = (ok, w')) :
    Abandoned w ok w' ∨ Delivered path t w ok w' := by
  rw [deliver, StateT.run_bind] at h
  cases hwrite : w.disk.write path t with
  | error f =>
    have hhost : (Host.write path t : StateM World (Except Fault Unit)).run w = (.error f, w) := by
      simp only [Host.write, StateT.run, hwrite]
    rw [hhost] at h
    cases h
    exact .inl ⟨rfl, rfl⟩
  | ok d =>
    have hhost : (Host.write path t : StateM World (Except Fault Unit)).run w =
        (.ok (), { w with disk := d }) := by
      simp only [Host.write, StateT.run, hwrite]
    rw [hhost] at h
    cases h
    exact .inr ⟨rfl, hwrite, rfl⟩

theorem run_withSource {k : Bytes → StateM World Bool}
    (h : (withSource source k).run w = (ok, w')) :
    Abandoned w ok w' ∨ ∃ content, w.disk.read source = .ok content ∧
      (k content).run w = (ok, w') := by
  have hhost : (Host.read source : StateM World (Except Fault Bytes)).run w =
      (w.disk.read source, w) := rfl
  rw [withSource, StateT.run_bind, hhost] at h
  cases hread : w.disk.read source with
  | error f =>
    rw [hread] at h
    cases h
    exact .inl ⟨rfl, rfl⟩
  | ok content =>
    rw [hread] at h
    exact .inr ⟨content, rfl, h⟩

/-- The tree of a source was dumped. -/
def Dumped (source : Bytes) (w : World) (ok : Bool) (w' : World) : Prop :=
  ∃ content, w.disk.read source = .ok content ∧ (parse content).errors = [] ∧
    Delivered (Path.treeOutput source) (Program.ofAst (parse content).body).text w ok w'

theorem run_runDump (h : (runDump source : StateM World Bool).run w = (ok, w')) :
    Abandoned w ok w' ∨ Dumped source w ok w' := by
  rcases run_withSource h with habandoned | ⟨content, hread, h⟩
  · exact .inl habandoned
  · dsimp only at h
    cases herrors : (parse content).errors with
    | nil =>
      rw [herrors] at h
      rcases run_deliver h with habandoned | hdelivered
      · exact .inl habandoned
      · exact .inr ⟨content, hread, herrors, hdelivered⟩
    | cons e es =>
      rw [herrors] at h
      cases h
      exact .inl ⟨rfl, rfl⟩

/-- What a compilation shows before its assembly: the symbol table, if the settings ask for it. -/
def preamble (s : Settings) (program : Program) (result : Compilation Float32) : Bytes :=
  if s.symbols then result.symbolText program else []

/-- A source was compiled. -/
def Assembled (s : Settings) (source : Bytes) (w : World) (ok : Bool) (w' : World) : Prop :=
  ∃ content program result a, w.disk.read source = .ok content ∧
    Shader.compile content = .attempted program result ∧ result.outcome = .ok a ∧ ok = true ∧
    w.disk.write (s.assemblyOutput source) (a.text singleText) = .ok w'.disk ∧
    w'.out = w.out ++ preamble s program result ++ a.text singleText

theorem run_runCompile (h : (runCompile s source : StateM World Bool).run w = (ok, w')) :
    Abandoned w ok w' ∨ Assembled s source w ok w' := by
  rcases run_withSource h with habandoned | ⟨content, hread, h⟩
  · exact .inl habandoned
  · cases hcompile : Shader.compile content with
    | malformed errors =>
      rw [hcompile] at h
      cases h
      exact .inl ⟨rfl, rfl⟩
    | illTyped errors =>
      rw [hcompile] at h
      cases h
      exact .inl ⟨rfl, rfl⟩
    | attempted program result =>
      rw [hcompile] at h
      dsimp only at h
      cases houtcome : result.outcome with
      | error e =>
        rw [houtcome] at h
        cases h
        exact .inl ⟨rfl, rfl⟩
      | ok a =>
        rw [houtcome] at h
        -- the streams have been written to, and the disk is as it was
        rcases run_deliver h with habandoned | hdelivered
        · exact .inl habandoned
        · exact .inr ⟨content, program, result, a, hread, hcompile, houtcome,
            hdelivered.succeeded, hdelivered.wrote, hdelivered.showed⟩

/-- A source is still there when its tree was dumped under another name. -/
theorem read_source_of_dump (hext : Path.ext source ≠ ascii ".parsed")
    (h : (runDump source : StateM World Bool).run w = (ok, w')) :
    w'.disk.read source = w.disk.read source := by
  rcases run_runDump h with ⟨-, hdisk⟩ | ⟨content, hread, -, hdelivered⟩
  · rw [hdisk]
  · rw [hread]
    exact Disk.read_write_beside hdelivered.wrote (Path.beside_treeOutput hext) hread

/-- A source is still there when it was compiled under a name that was not given. -/
theorem read_source_of_compile (houtput : s.output = []) (hext : byte '/' ∉ s.ext)
    (h : (runCompile s source : StateM World Bool).run w = (ok, w')) :
    w'.disk.read source = w.disk.read source := by
  rcases run_runCompile h with ⟨-, hdisk⟩ | ⟨content, _, _, _, hread, -, -, -, hwrite, -⟩
  · rw [hdisk]
  · rw [hread]
    rw [Settings.assemblyOutput, houtput] at hwrite
    exact Disk.read_write_beside hwrite (Path.beside_assemblyOutput hext source) hread

/-! ## The job of the options -/

/-- The jobs that options can mean. -/
inductive Means (lib : Library) (env : Environment) (o : Options) : Job → Prop where
  | refuse : Means lib env o refuse
  | answer (t : Bytes) : Means lib env o (answer t)
  | dump {source : Bytes} : o.sources = [source] → o.tree = true → Means lib env o (dump source)
  | watch {source : Bytes} : o.sources = [source] → o.watch = true →
      Means lib env o (watch (o.settings lib env) source)
  | compile {source : Bytes} : o.sources = [source] →
      Means lib env o (compile (o.settings lib env) source)

theorem means_ofOptions (lib : Library) (env : Environment) (o : Options) :
    Means lib env o (ofOptions lib env o) := by
  unfold ofOptions
  split
  · exact .answer _
  · split
    · exact .answer _
    · split
      · exact .answer _
      · rename_i hsources
        split
        · exact .dump hsources ‹_›
        · split
          · exact .watch hsources ‹_›
          · exact .compile hsources
      · exact .refuse

/-- Options that ask for nothing but one source mean to compile it. -/
theorem ofOptions_eq_compile {lib : Library} {env : Environment} {o : Options}
    (hhelp : o.help = false) (hversion : o.version = false) (htree : o.tree = false)
    (hwatch : o.watch = false) (hsource : o.sources = [source]) :
    ofOptions lib env o = compile (o.settings lib env) source := by
  simp [ofOptions, hhelp, hversion, htree, hwatch, hsource]

/-- A job that is no watch and fails has written nothing. -/
theorem Means.disk_eq_of_failed {lib : Library} {env : Environment} {o : Options} {job : Job}
    (hjob : Means lib env o job) (hwatch : o.watch = false)
    (h : (job.run : StateM World Bool).run w = (false, w')) : w'.disk = w.disk := by
  cases hjob with
  | refuse =>
    cases h
    rfl
  | answer => cases h
  | dump =>
    rcases run_runDump h with habandoned | ⟨content, -, -, hdelivered⟩
    · exact habandoned.2
    · cases hdelivered.succeeded
  | watch _ hwatches =>
    rw [hwatch] at hwatches
    cases hwatches
  | compile =>
    rcases run_runCompile h with habandoned | ⟨content, program, result, a, -, -, -, hok, -⟩
    · exact habandoned.2
    · cases hok

/-- A source that is not dumped over is kept by every job that is no watch and has no output
given. -/
theorem Means.read_source {lib : Library} {env : Environment} {o : Options} {job : Job}
    (hjob : Means lib env o job) (hsource : source ∈ o.sources) (houtput : o.output = [])
    (hwatch : o.watch = false) (hext : byte '/' ∉ (o.settings lib env).ext)
    (htree : o.tree = true → Path.ext source ≠ ascii ".parsed")
    (h : (job.run : StateM World Bool).run w = (ok, w')) :
    w'.disk.read source = w.disk.read source := by
  cases hjob with
  | refuse =>
    cases h
    rfl
  | answer =>
    cases h
    rfl
  | dump hsources hdump =>
    rw [hsources, List.mem_singleton] at hsource
    subst hsource
    exact read_source_of_dump (htree hdump) h
  | watch _ hwatches =>
    rw [hwatch] at hwatches
    cases hwatches
  | compile hsources =>
    rw [hsources, List.mem_singleton] at hsource
    subst hsource
    exact read_source_of_compile houtput hext h

end Job

/-! ## The command -/

/-- A file that is created at a path is one that holds what is written to it. This is an assumption
about the system that the disk belongs to: a path can also lead to a device. -/
def Disk.CreatesFile (d : Disk) (path : Bytes) : Prop := d.slot path ≠ .ok Place.nullDevice

section

variable {lib : Library} {env : Environment} {args : List Bytes} {o : Options} {source : Bytes}
  {w w' : World} {ok : Bool}

/-- A command that is told to compile one source does so. -/
theorem run_command_of_compile (ho : lib.invoke (normalizeArgs args) = .accepted o)
    (hhelp : o.help = false) (hversion : o.version = false) (htree : o.tree = false)
    (hwatch : o.watch = false) (hsource : o.sources = [source])
    (h : (lib.command env args : StateM World Bool).run w = (ok, w')) :
    Job.Abandoned w ok w' ∨ Job.Assembled (o.settings lib env) source w ok w' := by
  rw [Library.command, ho, Job.ofInvocation,
    Job.ofOptions_eq_compile hhelp hversion htree hwatch hsource] at h
  exact Job.run_runCompile h

/-- A command that is no watch and fails leaves the disk as it was. -/
theorem disk_eq_of_command_failed
    (hwatch : ∀ o, lib.invoke (normalizeArgs args) = .accepted o → o.watch = false)
    (h : (lib.command env args : StateM World Bool).run w = (false, w')) :
    w'.disk = w.disk := by
  rw [Library.command] at h
  cases hargs : lib.invoke (normalizeArgs args) with
  | refused =>
    rw [hargs] at h
    cases h
    rfl
  | answered t =>
    rw [hargs] at h
    cases h
  | accepted o =>
    rw [hargs] at h
    exact (Job.means_ofOptions lib env o).disk_eq_of_failed (hwatch o hargs) h

/-- Assembly that goes to the null device is shown all the same, and the disk stays as it was. -/
theorem command_to_nullDevice (ho : lib.invoke (normalizeArgs args) = .accepted o)
    (hhelp : o.help = false) (hversion : o.version = false) (htree : o.tree = false)
    (hwatch : o.watch = false) (hsource : o.sources = [source])
    (hnull : w.disk.slot ((o.settings lib env).assemblyOutput source) = .ok Place.nullDevice)
    (h : (lib.command env args : StateM World Bool).run w = (ok, w')) : w'.disk = w.disk := by
  rcases run_command_of_compile ho hhelp hversion htree hwatch hsource h with
    habandoned | ⟨_, _, _, _, -, -, -, -, hwrite, -⟩
  · exact habandoned.2
  · obtain ⟨place, hslot, hdisk⟩ := Disk.write_eq_ok hwrite
    cases hslot.symm.trans hnull
    simpa using hdisk

end

/-- **Only a success writes, and it writes what it shows.** Whatever reads the flags and the
variables, and whatever the arguments, the environment and the files: a command that is no watch and
fails leaves the disk as it was. One that compiles a source and succeeds has shown the symbol table,
if that was asked for, and then the assembly. On a system that creates a file for the output, the
output reads as that assembly, and no other place has another content than before. -/
theorem command_writes_what_it_shows (lib : Library) (env : Environment) (args : List Bytes)
    (w w' : World) (ok : Bool)
    (hwatch : ∀ o, lib.invoke (normalizeArgs args) = .accepted o → o.watch = false)
    (h : (lib.command env args : StateM World Bool).run w = (ok, w')) :
    (ok = false → w'.disk = w.disk) ∧
      ∀ o source, lib.invoke (normalizeArgs args) = .accepted o → o.help = false →
        o.version = false → o.tree = false → o.sources = [source] →
        w.disk.CreatesFile ((o.settings lib env).assemblyOutput source) → ok = true →
        ∃ content program result assembly place,
          w.disk.read source = .ok content ∧
          compile content = .attempted program result ∧ result.outcome = .ok assembly ∧
          w'.out = w.out ++ (if o.symbols then result.symbolText program else []) ++
            assembly.text singleText ∧
          w.disk.slot ((o.settings lib env).assemblyOutput source) = .ok place ∧
          w'.disk.entry? place = some (.file (assembly.text singleText)) ∧
          (∀ q, w'.disk.entry? q ≠ w.disk.entry? q → q = place) ∧
          w'.disk.read ((o.settings lib env).assemblyOutput source) =
            .ok (assembly.text singleText) := by
  constructor
  · rintro rfl
    exact disk_eq_of_command_failed hwatch h
  · rintro o source ho hhelp hversion htree hsource hcreates rfl
    rcases run_command_of_compile ho hhelp hversion htree (hwatch o ho) hsource h with ⟨hok, -⟩ |
      ⟨content, program, result, a, hread, hcompile, houtcome, -, hwrite, hshown⟩
    · cases hok
    · obtain ⟨place, hslot, -⟩ := Disk.write_eq_ok hwrite
      -- this is all that is used of the assumption on the path
      have hplace : place ≠ Place.nullDevice := by
        rintro rfl
        exact hcreates hslot
      refine ⟨content, program, result, a, place, hread, hcompile, houtcome, hshown, hslot,
        Disk.entry?_write_self hwrite hslot hplace, ?_, Disk.read_write_self hwrite hslot hplace⟩
      intro q hq
      by_contra hne
      exact hq (Disk.entry?_write_of_ne hwrite hslot hne)

/-- A symbol table, and an output in another directory. -/
theorem command_writes_what_it_shows_elsewhere :
    let args := [ascii "-dsymbols", ascii "-oout/a.s", ascii "a.frag"]
    let w : World :=
      { disk := .ofFiles [ascii "out"] [(ascii "a.frag", ascii "\x7bgl_FragColor=env1;\x7d")] }
    let after := (command {} args : StateM World Bool).run w
    after.1 = true ∧ ∃ table assembly, after.2.out = table ++ assembly ∧
      after.2.disk.read (ascii "out/a.s") = .ok assembly := by
  intro args w after
  have hoptions : Library.standard.invoke (normalizeArgs args) =
      .accepted { symbols := true, output := ascii "out/a.s", sources := [ascii "a.frag"] } := by
    decide +kernel
  have hok : after.1 = true := by decide +kernel
  have hwatch : ∀ o, Library.standard.invoke (normalizeArgs args) = .accepted o →
      o.watch = false := by
    intro o ho
    rw [hoptions] at ho
    cases ho
    rfl
  have hcreates : w.disk.CreatesFile (ascii "out/a.s") := by
    unfold Disk.CreatesFile
    decide +kernel
  obtain ⟨_, _, _, assembly, _, -, -, -, hshown, -, -, -, hread⟩ :=
    (command_writes_what_it_shows .standard {} args w after.2 after.1 hwatch rfl).2 _
      (ascii "a.frag") hoptions rfl rfl rfl rfl hcreates hok
  exact ⟨hok, _, assembly.text singleText, hshown, hread⟩

/-- **The source stays.** A command that is no watch, and is not told where to write, leaves every
source as it was, whatever the extension of the assembly, as long as that stays in the directory of
the source. The exception is the dump of a source whose extension is that of dumps. -/
theorem read_source_of_command (lib : Library) (env : Environment) (args : List Bytes) (w : World)
    (o : Options) (source : Bytes) (ho : lib.invoke (normalizeArgs args) = .accepted o)
    (hsource : source ∈ o.sources) (houtput : o.output = []) (hwatch : o.watch = false)
    (hext : byte '/' ∉ (o.settings lib env).ext)
    (htree : o.tree = true → Path.ext source ≠ ascii ".parsed") :
    ((lib.command env args : StateM World Bool).run w).2.disk.read source =
      w.disk.read source := by
  rw [Library.command, ho]
  exact (Job.means_ofOptions lib env o).read_source hsource houtput hwatch hext htree rfl

/-- A source with the very extension that the assembly is to have. -/
theorem read_source_of_command_same_ext :
    let args := [ascii "--ext", ascii ".frag", ascii "d/a.frag"]
    let source := ascii "\x7bgl_FragColor=env1;\x7d"
    let w : World := { disk := .ofFiles [] [(ascii "d/a.frag", source)] }
    let after := (command {} args : StateM World Bool).run w
    after.1 = true ∧ after.2.disk.read (ascii "d/a.frag") = .ok source := by
  intro args source w after
  have hoptions : Library.standard.invoke (normalizeArgs args) =
      .accepted { ext := some (ascii ".frag"), sources := [ascii "d/a.frag"] } := by
    decide +kernel
  have hread : w.disk.read (ascii "d/a.frag") = .ok source := by decide +kernel
  refine ⟨by decide +kernel, ?_⟩
  rw [← hread]
  exact read_source_of_command .standard {} args w _ (ascii "d/a.frag") hoptions (by decide) rfl rfl
    (by decide) (by intro h; cases h)

/-- A dump takes the place of a source that has the extension of dumps. -/
theorem dump_replaces_source :
    let args := [ascii "--dparse", ascii "a.parsed"]
    let w : World :=
      { disk := .ofFiles [] [(ascii "a.parsed", ascii "\x7bgl_FragColor=env1;\x7d")] }
    ∃ o, Library.standard.invoke (normalizeArgs args) = .accepted o ∧
      ascii "a.parsed" ∈ o.sources ∧ o.output = [] ∧ o.watch = false ∧
      byte '/' ∉ (o.settings .standard {}).ext ∧
      ((command {} args : StateM World Bool).run w).2.disk.read (ascii "a.parsed") ≠
        w.disk.read (ascii "a.parsed") := by
  intro args w
  refine ⟨{ tree := true, sources := [ascii "a.parsed"] }, ?_, ?_, rfl, rfl, ?_, ?_⟩
  · decide +kernel
  · decide
  · decide
  · decide +kernel

end Shader
