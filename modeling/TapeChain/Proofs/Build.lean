import TapeChain.CommandLine.World
import TapeChain.Proofs.Misreading

/-! What a build leaves behind. The two files are named after the input file, and a name tells only
by its suffix how a program is kept. A name made of dots alone gets no suffix from what is put behind
it, so the files built from such an input are later taken for source. -/
namespace TapeChain

/-! ### Commands that act on the files of a world -/

namespace CommandLine

section
variable {α β : Type} {w w' : World}

theorem bind_eq_iff {m : StateM World α} {f : α → StateM World β} {r : β × World} :
    (m >>= f) w = r ↔ ∃ a v, m w = (a, v) ∧ f a v = r := by
  constructor
  · intro h
    exact ⟨_, _, rfl, h⟩
  · rintro ⟨a, v, first, second⟩
    change (match m w with | (a, v) => f a v) = r
    rw [first]
    exact second

theorem run_bind_eq_ok_iff {x : Act (StateM World) α} {f : α → Act (StateM World) β} {b : β} :
    (x >>= f).run w = (.ok b, w') ↔ ∃ a v, x.run w = (.ok a, v) ∧ (f a).run v = (.ok b, w') := by
  rw [ExceptT.run_bind, bind_eq_iff]
  constructor
  · rintro ⟨r, v, first, second⟩
    cases r with
    | error failure => cases second
    | ok a => exact ⟨a, v, first, second⟩
  · rintro ⟨a, v, first, second⟩
    exact ⟨.ok a, v, first, second⟩

theorem run_lift_eq_ok_iff {m : StateM World α} {a : α} :
    (liftM m : Act (StateM World) α).run w = (.ok a, w') ↔ m w = (a, w') := by
  change (m >>= fun a => pure (Except.ok a)) w = _ ↔ _
  rw [bind_eq_iff]
  constructor
  · rintro ⟨b, v, done, same⟩
    cases same
    exact done
  · intro done
    exact ⟨a, w', done, rfl⟩

end

/-- The host reads and writes the files of the world, and leaves them alone when it reports or
prints. -/
structure Host.OnFiles (h : Host (StateM World)) : Prop where
  reads : h.readFile = World.readFile
  writes : h.writeFile = World.writeFile
  reports : ∀ n w, (h.report n w).2.files = w.files
  prints : ∀ b w, (h.output b w).2.files = w.files

theorem World.host_onFiles : World.host.OnFiles := ⟨rfl, rfl, fun _ _ => rfl, fun _ _ => rfl⟩

theorem World.quiet_onFiles : World.host.quiet.OnFiles := ⟨rfl, rfl, fun _ _ => rfl, fun _ _ => rfl⟩

section
variable {h : Host (StateM World)} (on : h.OnFiles) {w w' : World}
include on

theorem files_of_printLine {line : String} {u : Unit}
    (done : (printLine h line).run w = (.ok u, w')) : w'.files = w.files := by
  cases done
  exact on.prints _ w

theorem files_of_report {n : Notice} {u : Unit} (done : (report h [n]).run w = (.ok u, w')) :
    w'.files = w.files := by
  cases done
  exact on.reports n w

theorem of_load {config : Config} {file : FileArgument} {path : String} {x : Executable}
    (done : (load h config file).run w = (.ok (path, x), w')) :
    file = some path ∧ (∃ notice, ProgramFile.load w.files config path = .ok (x, notice)) ∧
      w'.files = w.files := by
  unfold load at done
  cases file with
  | none => cases done
  | some path' =>
      obtain ⟨r, v, read, done⟩ := run_bind_eq_ok_iff.mp done
      rw [run_lift_eq_ok_iff, on.reads] at read
      cases read
      cases readable : w.files.read path' with
      | error fault =>
          rw [readable] at done
          cases done
      | ok bytes =>
          rw [readable] at done
          cases parsed : ProgramFile.parse config path' bytes with
          | error fault =>
              simp only [parsed] at done
              cases done
          | ok pair =>
              simp only [parsed] at done
              obtain ⟨u, v, reported, done⟩ := run_bind_eq_ok_iff.mp done
              cases done
              refine ⟨rfl, ⟨pair.2, ?_⟩, files_of_report on reported⟩
              rw [ProgramFile.load_of_read readable, parsed]

theorem of_save {path : String} {bytes : Bytes} {u : Unit}
    (done : (save h path bytes).run w = (.ok u, w')) : w.files.write path bytes = .ok w'.files := by
  unfold save at done
  obtain ⟨r, v, written, done⟩ := run_bind_eq_ok_iff.mp done
  rw [run_lift_eq_ok_iff, on.writes, World.writeFile] at written
  split at written
  next saved =>
    cases written
    cases done
    exact saved
  next =>
    cases written
    cases done

/-- The two files of a build, one after the other. -/
theorem of_build {config : Config} {file : FileArgument} {code : Nat}
    (done : (build h config file).run w = (.ok code, w')) :
    ∃ path x notice middle, file = some path ∧
      ProgramFile.load w.files config path = .ok (x, notice) ∧
      w.files.write (Path.stem path ++ textSuffix) (ProgramFile.textBytes x) = .ok middle ∧
      middle.write (Path.stem path ++ objectSuffix) (ProgramFile.objectBytes x) = .ok w'.files := by
  unfold build at done
  obtain ⟨⟨path, x⟩, v, loaded, done⟩ := run_bind_eq_ok_iff.mp done
  obtain ⟨u, v', text, done⟩ := run_bind_eq_ok_iff.mp done
  obtain ⟨u', v'', object, done⟩ := run_bind_eq_ok_iff.mp done
  obtain ⟨_, v3, reported, done⟩ := run_bind_eq_ok_iff.mp done
  obtain ⟨_, v4, printed, done⟩ := run_bind_eq_ok_iff.mp done
  cases done
  obtain ⟨same, ⟨notice, loaded⟩, kept⟩ := of_load on loaded
  have text := of_save on text
  have object := of_save on object
  rw [kept] at text
  rw [files_of_printLine on printed, files_of_report on reported]
  exact ⟨path, x, notice, v'.files, same, loaded, text, object⟩

end

theorem of_carryOut {h : Host (StateM World)} {env : String → Option String} {fuel : Nat}
    {interpreted : Bool} {command : Command} {w w' : World}
    (done : carryOut h env fuel interpreted command w = (.exit 0, w')) :
    ∃ config, (perform h fuel config command).run w = (.ok 0, w') := by
  cases set : Config.ofEnv env with
  | error fault =>
      rw [carryOut, set] at done
      cases done
  | ok config =>
      rw [carryOut, set] at done
      obtain ⟨r, v, performed, done⟩ := bind_eq_iff.mp done
      refine ⟨_, performed.trans ?_⟩
      cases r with
      | ok code =>
          cases done
          rfl
      | error failure =>
          dsimp only at done
          split at done
          · obtain ⟨_, _, _, done⟩ := bind_eq_iff.mp done
            cases done
          · cases done

theorem of_execute {env : String → Option String} {fuel : Nat} {words : List String}
    {i : Invocation} (read : Invocation.read words = .ok i) {command : Command}
    (asked : i.command = some command) {w w' : World}
    (done : execute World.host env fuel words w = (.exit 0, w')) :
    ∃ (h : Host (StateM World)) (config : Config), h.OnFiles ∧
      (perform h fuel config command).run w = (.ok 0, w') := by
  simp only [execute, read, asked] at done
  obtain ⟨config, done⟩ := of_carryOut done
  refine ⟨_, config, ?_, done⟩
  split
  · exact World.host_onFiles
  · exact World.quiet_onFiles

section
variable {h : Host (StateM World)} (on : h.OnFiles) {w : World}
include on

theorem load_run {config : Config} {path : String} {x : Executable} {notice : Notice}
    (loaded : ProgramFile.load w.files config path = .ok (x, notice)) :
    ∃ v, (load h config (some path)).run w = (.ok (path, x), v) ∧ v.files = w.files := by
  obtain ⟨bytes, readable, parsed⟩ := bind_eq_ok_iff.mp loaded
  have found : (liftM (h.readFile path) : Act (StateM World) _).run w = (.ok (.ok bytes), w) := by
    rw [run_lift_eq_ok_iff, on.reads, World.readFile, mapError_eq_ok_iff.mp readable]
  have reported : (report h [notice]).run w = (.ok (), (h.report notice w).2) := rfl
  refine ⟨_, run_bind_eq_ok_iff.mpr ⟨_, _, found, ?_⟩, on.reports notice w⟩
  simp only [parsed]
  exact run_bind_eq_ok_iff.mpr ⟨_, _, reported, rfl⟩

theorem save_run {path : String} {bytes : Bytes} {saved : Files}
    (written : w.files.write path bytes = .ok saved) :
    (save h path bytes).run w = (.ok (), { w with files := saved }) := by
  refine run_bind_eq_ok_iff.mpr ⟨.ok (), _, ?_, rfl⟩
  rw [run_lift_eq_ok_iff, on.writes, World.writeFile, written]

theorem build_run {config : Config} {path : String} {x : Executable} {notice : Notice}
    (loaded : ProgramFile.load w.files config path = .ok (x, notice)) {middle saved : Files}
    (text : w.files.write (Path.stem path ++ textSuffix) (ProgramFile.textBytes x) = .ok middle)
    (object : middle.write (Path.stem path ++ objectSuffix) (ProgramFile.objectBytes x) = .ok saved) :
    ∃ v, (build h config (some path)).run w = (.ok 0, v) ∧ v.files = saved := by
  obtain ⟨v, load, kept⟩ := load_run on loaded
  rw [← kept] at text
  have text := save_run on text
  have object := save_run on (w := { v with files := middle }) object
  refine ⟨_, run_bind_eq_ok_iff.mpr ⟨_, _, load, run_bind_eq_ok_iff.mpr ⟨_, _, text,
    run_bind_eq_ok_iff.mpr ⟨_, _, object, run_bind_eq_ok_iff.mpr ⟨(), _, rfl,
      run_bind_eq_ok_iff.mpr ⟨(), _, rfl, rfl⟩⟩⟩⟩⟩, ?_⟩
  exact (on.prints _ _).trans (on.reports _ _)

end

theorem execute_run {env : String → Option String} {config : Config}
    (set : Config.ofEnv env = .ok config) {fuel : Nat} {words : List String} {i : Invocation}
    (read : Invocation.read words = .ok i) {command : Command} (asked : i.command = some command)
    {w w' : World}
    (performed : (perform (if i.verbose then World.host else World.host.quiet) fuel
      (if i.interpreted then { config with backend := .interpreted } else config) command).run w =
        (.ok 0, w')) :
    execute World.host env fuel words w = (.exit 0, w') := by
  simp only [execute, read, asked, carryOut, set]
  exact bind_eq_iff.mpr ⟨_, _, performed, rfl⟩

end CommandLine

/-! ### The files of a build -/

namespace ProgramFile

/-- The configuration has no part in what is loaded. -/
theorem load_config {fs : Files} {config : Config} {path : String} {x : Executable}
    {notice : Notice} (loaded : load fs config path = .ok (x, notice)) (config' : Config) :
    load fs config' path = .ok (⟨x.code, config'⟩, notice) := by
  obtain ⟨bytes, readable, parsed⟩ := bind_eq_ok_iff.mp loaded
  rw [load_of_read (mapError_eq_ok_iff.mp readable)]
  obtain ⟨text, decoded, -⟩ := bind_eq_ok_iff.mp parsed
  rw [parse_of_decode decoded] at parsed ⊢
  split at parsed
  next source =>
    rw [if_pos source, mapError_eq_ok_iff]
    obtain ⟨p, read, made⟩ := bind_eq_ok_iff.mp (mapError_eq_ok_iff.mp parsed)
    cases made
    exact bind_eq_ok_iff.mpr ⟨p, read, rfl⟩
  next artifact =>
    rw [if_neg artifact, mapError_eq_ok_iff]
    obtain ⟨c, read, made⟩ := bind_eq_ok_iff.mp (mapError_eq_ok_iff.mp parsed)
    cases made
    exact bind_eq_ok_iff.mpr ⟨c, read, rfl⟩

theorem carrier_of_none {path : String} (bare : Path.suffix path = "") :
    Carrier.ofPath path = .source := by
  rw [Carrier.ofPath, bare]
  decide

/-- Chain text that is loaded as source. -/
theorem load_as_source {fs : Files} {x : Executable} {path : String}
    (readable : fs.read path = .ok (textBytes x)) (source : Carrier.ofPath path = .source)
    (config : Config) :
    ∃ y notice, load fs config path = .ok (y, notice) ∧ (y.chain = x.chain ↔ x.chain = .stop) := by
  obtain ⟨p, read, same⟩ := x.chain.read_spell
  have decoded := decode_textBytes (show Carrier.ofPath path ≠ .object by rw [source]; decide) x
  rw [load_of_read readable, parse_of_decode decoded, if_pos source, Executable.compile, read]
  refine ⟨_, _, rfl, ?_⟩
  change p.lower.chain = x.chain ↔ _
  rw [p.lower_chain]
  exact same

end ProgramFile

namespace Files

variable {fs middle saved : Files} {path : String} {textual packed : Bytes}

/-- The second file of a build does not replace the first. -/
theorem read_of_pair (text : fs.write (Path.stem path ++ textSuffix) textual = .ok middle)
    (object : middle.write (Path.stem path ++ objectSuffix) packed = .ok saved) :
    saved.read (Path.stem path ++ textSuffix) = .ok textual ∧
      saved.read (Path.stem path ++ objectSuffix) = .ok packed := by
  refine ⟨read_write_other object (read_write text) ?_, read_write object⟩
  intro place leads leads'
  -- Stems have no slashes, so both files stand in the working folder under their own names.
  have single (ext : String) (plain : '/' ∉ ext.toList) (long : 2 < ext.length)
      (leads : middle.Leads (Path.stem path ++ ext) place) :
      place = middle.working ++ [Path.stem path ++ ext] := by
    apply leads.of_name (Path.not_mem_stem_append path plain)
    rw [String.length_append]
    omega
  have same := (single textSuffix (by decide) (by decide) leads).symm.trans
    (single objectSuffix (by decide) (by decide) leads')
  have names := congrArg String.toList (List.singleton_inj.mp (List.append_cancel_left same))
  rw [String.toList_append, String.toList_append] at names
  exact absurd (List.append_cancel_left names) (by decide)

end Files

namespace CommandLine

theorem suffix_of_text (path : String) : Path.suffix (Path.stem path ++ textSuffix) =
    if Path.onlyDots (Path.lastName path.toList) then "" else textSuffix :=
  Path.suffix_stem_append path rfl (by decide) (by decide) (by decide)

theorem suffix_of_object (path : String) : Path.suffix (Path.stem path ++ objectSuffix) =
    if Path.onlyDots (Path.lastName path.toList) then "" else objectSuffix :=
  Path.suffix_stem_append path rfl (by decide) (by decide) (by decide)

/-- What a build writes is loaded, under any configuration, as a program with the chain of the input,
unless the name of the input is made of dots alone. Then both files are taken for source, and the chain
text is read as another program, except that of the empty program. -/
theorem built_files_load_back (env : String → Option String) (fuel : Nat) (words : List String)
    (i : Invocation) (file : FileArgument) (w w' : World) (read : Invocation.read words = .ok i)
    (asked : i.command = some (.build file))
    (done : execute World.host env fuel words w = (.exit 0, w')) :
    ∃ path code notice, file = some path ∧
      (∀ config, ProgramFile.load w.files config path = .ok (⟨code, config⟩, notice)) ∧
      if Path.onlyDots (Path.lastName path.toList) then
        (∀ ext ∈ [textSuffix, objectSuffix], Carrier.ofPath (Path.stem path ++ ext) = .source) ∧
          ∀ config, ∃ y notice',
            ProgramFile.load w'.files config (Path.stem path ++ textSuffix) = .ok (y, notice') ∧
              (y.chain = code.chain ↔ code.chain = .stop)
      else
        ∀ ext ∈ [textSuffix, objectSuffix], ∀ config, ∃ y notice',
          ProgramFile.load w'.files config (Path.stem path ++ ext) = .ok (y, notice') ∧
            y.chain = code.chain ∧ y.config = config := by
  obtain ⟨h, config, on, performed⟩ := of_execute read asked done
  obtain ⟨path, x, notice, middle, given, loaded, text, object⟩ := of_build on performed
  obtain ⟨textual, packed⟩ := Files.read_of_pair text object
  refine ⟨path, x.code, notice, given, ProgramFile.load_config loaded, ?_⟩
  have namedText := suffix_of_text path
  have namedObject := suffix_of_object path
  split
  next dots =>
    rw [if_pos dots] at namedText namedObject
    refine ⟨?_, ?_⟩
    · rintro ext (_ | ⟨_, _ | ⟨_, ⟨⟩⟩⟩)
      · exact ProgramFile.carrier_of_none namedText
      · exact ProgramFile.carrier_of_none namedObject
    · exact ProgramFile.load_as_source textual (ProgramFile.carrier_of_none namedText)
  next dots =>
    rw [if_neg dots] at namedText namedObject
    have same : (Linked.fresh x.chain).chain = x.code.chain := Linked.fresh_chain x.chain
    rintro ext (_ | ⟨_, _ | ⟨_, ⟨⟩⟩⟩) config
    · obtain ⟨notice', loaded⟩ := ProgramFile.load_text textual namedText config
      exact ⟨_, notice', loaded, same, rfl⟩
    · obtain ⟨notice', loaded⟩ := ProgramFile.load_object packed namedObject config
      exact ⟨_, notice', loaded, same, rfl⟩

/-- An input with four dots in its name that is an artifact itself, and is written over. -/
theorem dotted_artifact_loads_back :
    let x : Executable := ⟨.fresh (.loop (.input .stop) .stop), {}⟩
    let w : World := ⟨⟨[], [(["..a.b.bft"], .file (ProgramFile.textBytes x))]⟩, #[], #[], [], .start []⟩
    let words := ["--verbose", "build", "..a.b.bft"]
    Invocation.read words = .ok ⟨true, false, some (.build (some "..a.b.bft"))⟩ ∧
      ∃ w', execute World.host (fun _ => none) 0 words w = (.exit 0, w') ∧
        ∀ path ∈ ["..a.b.bft", "..a.b.bfo"], ∃ y notice,
          ProgramFile.load w'.files {} path = .ok (y, notice) ∧ y.chain = x.chain := by
  intro x w words
  have textName : Path.stem "..a.b.bft" ++ textSuffix = "..a.b.bft" := by decide
  have objectName : Path.stem "..a.b.bft" ++ objectSuffix = "..a.b.bfo" := by decide
  have read : Invocation.read words = .ok ⟨true, false, some (.build (some "..a.b.bft"))⟩ := rfl
  have readable (bytes : Bytes) :
      (Files.mk [] [(["..a.b.bft"], .file bytes)]).read "..a.b.bft" = .ok bytes := rfl
  have text (bytes textual : Bytes) :
      (Files.mk [] [(["..a.b.bft"], .file bytes)]).write "..a.b.bft" textual =
        .ok ⟨[], [(["..a.b.bft"], .file textual)]⟩ := rfl
  have object (textual packed : Bytes) :
      (Files.mk [] [(["..a.b.bft"], .file textual)]).write "..a.b.bfo" packed =
        .ok ⟨[], [(["..a.b.bfo"], .file packed), (["..a.b.bft"], .file textual)]⟩ := rfl
  obtain ⟨notice, loaded⟩ := ProgramFile.load_text (readable (ProgramFile.textBytes x)) rfl {}
  obtain ⟨w', built, -⟩ := build_run World.host_onFiles (w := w) loaded
    (textName.symm ▸ text _ _) (objectName.symm ▸ object _ _)
  have done : execute World.host (fun _ => none) 0 words w = (.exit 0, w') :=
    execute_run (show Config.ofEnv (fun _ => none) = .ok {} from rfl) read rfl built
  obtain ⟨path, code, notice', given, input, outputs⟩ :=
    built_files_load_back _ _ _ _ _ _ _ read rfl done
  cases given
  have same : code.chain = x.chain := by
    have twice := (input {}).symm.trans loaded
    cases twice
    exact Linked.fresh_chain x.chain
  rw [if_neg (by decide), same] at outputs
  refine ⟨read, w', done, ?_⟩
  rintro path (_ | ⟨_, _ | ⟨_, ⟨⟩⟩⟩)
  · obtain ⟨y, notice'', found, equal, -⟩ := outputs textSuffix List.mem_cons_self {}
    exact ⟨y, notice'', textName ▸ found, equal⟩
  · obtain ⟨y, notice'', found, equal, -⟩ :=
      outputs objectSuffix (List.mem_cons_of_mem _ List.mem_cons_self) {}
    exact ⟨y, notice'', objectName ▸ found, equal⟩

/-- A name of three dots. The file that should hold the chain text is read as another program. -/
theorem three_dots_built_misread :
    let w : World := ⟨⟨[], [(["..."], .file (Text.encodeUtf8 "+"))]⟩, #[], #[], [], .start []⟩
    ∃ w', execute World.host (fun _ => none) 0 ["build", "..."] w = (.exit 0, w') ∧
      ∃ x notice y notice', ProgramFile.load w.files {} "..." = .ok (x, notice) ∧
        ProgramFile.load w'.files {} "....bft" = .ok (y, notice') ∧ y.chain ≠ x.chain := by
  intro w
  have textName : Path.stem "..." ++ textSuffix = "....bft" := by decide
  have objectName : Path.stem "..." ++ objectSuffix = "....bfo" := by decide
  have read : Invocation.read ["build", "..."] = .ok ⟨false, false, some (.build (some "..."))⟩ := rfl
  have text (bytes textual : Bytes) : (Files.mk [] [(["..."], .file bytes)]).write "....bft" textual =
      .ok ⟨[], [(["....bft"], .file textual), (["..."], .file bytes)]⟩ := rfl
  have object (bytes textual packed : Bytes) :
      (Files.mk [] [(["....bft"], .file textual), (["..."], .file bytes)]).write "....bfo" packed =
        .ok ⟨[], [(["....bfo"], .file packed), (["....bft"], .file textual),
          (["..."], .file bytes)]⟩ := rfl
  have loaded : ProgramFile.load w.files {} "..." =
      .ok (⟨(Program.add 1 .done).lower, {}⟩,
        .compiled "+".length 1 (Program.add 1 .done).lower.chain.length) := by
    have readable : w.files.read "..." = .ok (Text.encodeUtf8 "+") := rfl
    have decoded : ProgramFile.decode "..." (Text.encodeUtf8 "+") = .ok "+" := rfl
    have source : Carrier.ofPath "..." = .source := by decide
    rw [ProgramFile.load_of_read readable, ProgramFile.parse_of_decode decoded, if_pos source]
    rfl
  obtain ⟨w', built, saved⟩ := build_run World.quiet_onFiles (w := w) loaded
    (textName.symm ▸ text _ _) (objectName.symm ▸ object _ _ _)
  have done : execute World.host (fun _ => none) 0 ["build", "..."] w = (.exit 0, w') :=
    execute_run (show Config.ofEnv (fun _ => none) = .ok {} from rfl) read rfl built
  have readable (bytes textual packed : Bytes) :
      (Files.mk [] [(["....bfo"], .file packed), (["....bft"], .file textual),
        (["..."], .file bytes)]).read "....bft" = .ok textual := rfl
  obtain ⟨y, notice, misread, same⟩ :=
    ProgramFile.load_as_source (readable _ _ _) (show Carrier.ofPath "....bft" = .source by decide) {}
  refine ⟨w', done, _, _, y, notice, loaded, saved ▸ misread, ?_⟩
  rw [Ne, same]
  change (Program.add 1 .done).lower.chain ≠ .stop
  rw [Program.lower_chain]
  intro stop
  cases stop

end CommandLine

end TapeChain
