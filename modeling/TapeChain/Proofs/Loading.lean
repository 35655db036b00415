import TapeChain.Proofs.Artifact
import TapeChain.ProgramFile

/-! Faults of loading. Whatever the bytes of a file, a load that fails is reported by the artifact
reader or the program reader, with one exception: a numeral in artifact text that has more digits than
an integer is read from is reported by neither. -/
namespace TapeChain

/-! ### Who reports a fault -/

/-- The artifact reader, the program reader, or something below them that neither of them expects to
fail. -/
inductive Reporter where
  | artifact
  | program
  | foreign
  deriving DecidableEq

def ArtifactFault.reporter : ArtifactFault → Reporter
  | .numeral _ => .foreign
  | .symbol .bareInteger => .foreign
  | _ => .artifact

def LoadFault.reporter : LoadFault → Reporter
  | .mismatch _ => .program
  | .artifact fault => fault.reporter
  | .illegal _ => .foreign
  | .notANode _ => .foreign

def OpenFault.reporter : OpenFault → Reporter
  | .file _ => .foreign
  | .corrupt _ _ => .artifact
  | .notText _ _ => .artifact
  | .load fault => fault.reporter

/-! ### Values of a kind -/

def Value.IsA : Kind → Value → Prop
  | .hex, v => ∃ d, v = .digit d
  | .int, v => ∃ o, v = .operand o
  | .op, v => ∃ c, v = .chain c

theorem Kind.name_inj {a b : Kind} (h : a.name = b.name) : a = b := by
  revert h
  cases a <;> cases b <;> decide

/-- Only a plain value goes by the name of a kind that it is not of. -/
theorem Value.isA_of_kindName {v : Value} {ws : List Word} (spelled : v.Words ws) {kind : Kind}
    (named : v.kindName = kind.name) : v.IsA kind := by
  cases v with
  | digit d =>
      obtain rfl : Kind.hex = kind := Kind.name_inj named
      exact ⟨d, rfl⟩
  | operand o =>
      obtain rfl : Kind.int = kind := Kind.name_inj named
      exact ⟨o, rfl⟩
  | chain c =>
      obtain rfl : Kind.op = kind := Kind.name_inj named
      exact ⟨c, rfl⟩
  | plain d => cases spelled

namespace Symbol

theorem isA_of_misfit? {s : Symbol} {position : Nat} {kinds : List Kind} {vs : List Value}
    {wss : List (List Word)} (fits : s.misfit? position kinds vs = none)
    (count : vs.length = kinds.length) (spelled : List.Forall₂ Value.Words vs wss) :
    List.Forall₂ Value.IsA kinds vs := by
  induction kinds generalizing position vs wss with
  | nil =>
      rw [List.length_eq_zero_iff.mp count]
      exact .nil
  | cons kind kinds ih =>
      cases spelled with
      | nil => cases count
      | cons first others =>
          rw [misfit?] at fits
          split at fits
          next named =>
            exact .cons (Value.isA_of_kindName first named) (ih fits (Nat.succ.inj count) others)
          next => cases fits

theorem join_of_isA {s : Symbol} {vs : List Value} (h : List.Forall₂ Value.IsA s.params vs) :
    ∃ v, s.join vs = .ok v := by
  cases s with
  | digit d =>
      cases h
      exact ⟨_, rfl⟩
  | operand =>
      obtain _ | ⟨⟨d7, rfl⟩, _ | ⟨⟨d6, rfl⟩, _ | ⟨⟨d5, rfl⟩, _ | ⟨⟨d4, rfl⟩, _ | ⟨⟨d3, rfl⟩,
        _ | ⟨⟨d2, rfl⟩, _ | ⟨⟨d1, rfl⟩, _ | ⟨⟨d0, rfl⟩, _ | _⟩⟩⟩⟩⟩⟩⟩⟩ := h
      exact ⟨_, rfl⟩
  | stop =>
      cases h
      exact ⟨_, rfl⟩
  | loop =>
      obtain _ | ⟨⟨body, rfl⟩, _ | ⟨⟨next, rfl⟩, _ | _⟩⟩ := h
      exact ⟨_, rfl⟩
  | move =>
      obtain _ | ⟨⟨offset, rfl⟩, _ | ⟨⟨next, rfl⟩, _ | _⟩⟩ := h
      exact ⟨_, rfl⟩
  | add =>
      obtain _ | ⟨⟨delta, rfl⟩, _ | ⟨⟨next, rfl⟩, _ | _⟩⟩ := h
      exact ⟨_, rfl⟩
  | output =>
      obtain _ | ⟨⟨next, rfl⟩, _ | _⟩ := h
      exact ⟨_, rfl⟩
  | input =>
      obtain _ | ⟨⟨next, rfl⟩, _ | _⟩ := h
      exact ⟨_, rfl⟩

/-- The fault of an argument names a position, and never that it is a bare integer. -/
theorem misfit?_ne_bareInteger {s : Symbol} {position : Nat} {kinds : List Kind} {vs : List Value} :
    s.misfit? position kinds vs ≠ some .bareInteger := by
  induction kinds generalizing position vs with
  | nil => simp [misfit?]
  | cons kind kinds ih =>
      cases vs with
      | nil => simp [misfit?]
      | cons v vs =>
          rw [misfit?]
          split
          · exact ih
          · intro same
            cases same

theorem build_ne_bareInteger {s : Symbol} {vs : List Value} {wss : List (List Word)}
    (spelled : List.Forall₂ Value.Words vs wss) : s.build vs ≠ .error .bareInteger := by
  intro failed
  unfold build at failed
  split at failed
  · cases failed
  next count =>
    split at failed
    next fault found =>
      cases failed
      exact misfit?_ne_bareInteger found
    next fits =>
      obtain ⟨v, joined⟩ := join_of_isA (isA_of_misfit? fits (not_not.mp count) spelled)
      rw [joined] at failed
      cases failed

end Symbol

/-! ### Faults of artifact text -/

/-- The fault is the artifact reader's, or it is that of a numeral among the words with too many
digits. -/
def ArtifactFault.Known (ws : List Word) (fault : ArtifactFault) : Prop :=
  fault.reporter = .artifact ∨
    ∃ n : Numeral, Word.number n ∈ ws ∧ 4300 < n.digits.length ∧
      fault = .numeral (.tooLong n.digits.length)

theorem ArtifactFault.Known.mono {ws ws' : List Word} {fault : ArtifactFault} (h : fault.Known ws)
    (sub : ws ⊆ ws') : fault.Known ws' := by
  rcases h with reported | ⟨n, mem, long, same⟩
  · exact .inl reported
  · exact .inr ⟨n, sub mem, long, same⟩

theorem known_of_joinSymbol {name : String} {vs : List Value} {wss : List (List Word)}
    (spelled : List.Forall₂ Value.Words vs wss) {fault : ArtifactFault}
    (failed : joinSymbol name vs = .error fault) (ws : List Word) : fault.Known ws := by
  left
  rcases bind_eq_error_iff.mp failed with unresolved | ⟨s, -, unbuilt⟩
  · obtain ⟨fault', unknown, rfl⟩ := mapError_eq_error_iff.mp unresolved
    unfold Symbol.resolve at unknown
    split at unknown
    · cases unknown
    · cases unknown
      rfl
  · obtain ⟨fault', refused, rfl⟩ := mapError_eq_error_iff.mp unbuilt
    cases fault' with
    | unknown name => rfl
    | arity name wanted got => rfl
    | argument position name wanted shown => rfl
    | bareInteger => exact absurd refused (Symbol.build_ne_bareInteger spelled)

theorem known_of_ofLiteral {n : Numeral} {fault : ArtifactFault}
    (failed : Operand.ofLiteral (String.ofList n.chars) = .error fault) :
    fault.Known [.number n] := by
  rcases bind_eq_error_iff.mp failed with unread | ⟨value, -, outside⟩
  · obtain ⟨fault', unread, rfl⟩ := mapError_eq_error_iff.mp unread
    rw [n.readInteger_chars] at unread
    split at unread
    next long =>
      cases unread
      exact .inr ⟨n, List.mem_singleton.mpr rfl, long, rfl⟩
    next => cases unread
  · split at outside
    · cases outside
    · cases outside
      exact .inl rfl

theorem Word.mem_node {head : String} {args : List (List Word)} {u : List Word} (mem : u ∈ args) :
    u ⊆ Word.node head args := by
  have inside : u ⊆ [comma].intercalate args := by
    induction args with
    | nil => cases mem
    | cons v args ih =>
        cases args with
        | nil =>
            cases List.mem_singleton.mp mem
            simp
        | cons w args =>
            rw [List.intercalate_cons_cons]
            rcases List.mem_cons.mp mem with rfl | mem
            · rw [List.append_assoc]
              exact List.subset_append_left _ _
            · exact List.subset_append_of_subset_right _ (ih mem)
  intro w found
  exact .tail _ (.tail _ (List.mem_append_left _ (inside found)))

mutual

theorem Term.known_of_build : (t : Term) → t.Proper → (∀ w ∈ t.words, w.Legal) →
    ∀ {depth : Nat} {e : DeepFault}, t.build depth = .error e → e.fault.Known t.words
  | .leaf name, _, _, depth, e, h => by
      obtain ⟨fault, failed, rfl⟩ := mapError_eq_error_iff.mp h
      exact known_of_joinSymbol .nil failed _
  | .literal text, _, legal, depth, e, h => by
      obtain ⟨n, spelled⟩ := legal _ List.mem_cons_self
      have same : text = String.ofList n.chars := by rw [← spelled, String.ofList_toList]
      subst same
      obtain ⟨fault, failed, rfl⟩ := mapError_eq_error_iff.mp h
      cases read : Operand.ofLiteral (String.ofList n.chars) with
      | error fault' =>
          rw [read] at failed
          cases failed
          exact known_of_ofLiteral read
      | ok o =>
          rw [read] at failed
          cases failed
  | .node name args, proper, legal, depth, e, h => by
      have inside := (Word.legal_node_iff.mp legal).2
      rw [Term.build] at h
      split at h
      next e' inner =>
        cases h
        obtain ⟨u, mem, known⟩ := args.known_of_build proper.2 inside inner
        exact known.mono (Word.mem_node mem)
      next values inner =>
        obtain ⟨fault, failed, rfl⟩ := mapError_eq_error_iff.mp h
        exact known_of_joinSymbol (args.words_of_build proper.2 inside inner) failed _

theorem Args.known_of_build : (args : Args) → args.Proper → (∀ u ∈ args.words, ∀ w ∈ u, w.Legal) →
    ∀ {depth : Nat} {e : DeepFault}, args.build depth = .error e →
      ∃ u ∈ args.words, e.fault.Known u
  | .nil, _, _, _, _, h => by cases h
  | .cons t rest, proper, legal, depth, e, h => by
      obtain ⟨first, others⟩ := List.forall_mem_cons.mp legal
      have here {e : DeepFault} (failed : t.build depth = .error e) :
          ∃ u ∈ (Args.cons t rest).words, e.fault.Known u :=
        ⟨t.words, List.mem_cons_self, t.known_of_build proper.1 first failed⟩
      have behind {e : DeepFault} (failed : rest.build depth = .error e) :
          ∃ u ∈ (Args.cons t rest).words, e.fault.Known u := by
        obtain ⟨u, mem, known⟩ := rest.known_of_build proper.2 others failed
        exact ⟨u, List.mem_cons_of_mem _ mem, known⟩
      rw [Args.build] at h
      split at h
      next => cases h
      next failed _ =>
        cases h
        exact here failed
      next _ failed =>
        cases h
        exact behind failed
      next left right failed failed' =>
        -- of two faults the deeper one is reported, and both are known
        cases h
        unfold DeepFault.first
        split
        · exact behind failed'
        · exact here failed

end

theorem Chain.known_of_ofText {text : String} {fault : ArtifactFault}
    (failed : Chain.ofText text = .error fault) :
    fault.reporter = .artifact ∨ ∃ t, Term.read text = .ok t ∧ fault.Known t.words := by
  rcases bind_eq_error_iff.mp failed with unread | ⟨t, read, failed⟩
  · obtain ⟨fault', -, rfl⟩ := mapError_eq_error_iff.mp unread
    exact .inl rfl
  · rw [mapError_eq_ok_iff] at read
    rcases bind_eq_error_iff.mp failed with unbuilt | ⟨v, -, other⟩
    · obtain ⟨e, faulty, rfl⟩ := mapError_eq_error_iff.mp unbuilt
      obtain ⟨proper, -, legal⟩ := Term.found_of_read read
      exact .inr ⟨t, read, t.known_of_build proper legal faulty⟩
    · cases v with
      | chain c => cases other
      | operand o =>
          cases other
          exact .inl rfl
      | digit d =>
          cases other
          exact .inl rfl
      | plain d =>
          cases other
          exact .inl rfl

theorem Chain.ofText_of_build {text : String} {t : Term} {e : DeepFault}
    (read : Term.read text = .ok t) (built : t.build 0 = .error e) :
    Chain.ofText text = .error e.fault := by
  simp only [ofText, read, built, Except.mapError, bind, Except.bind]

theorem Chain.ofText_long_numeral {n : Numeral} (long : 4300 < n.digits.length) :
    Chain.ofText (String.ofList n.chars) = .error (.numeral (.tooLong n.digits.length)) := by
  have spaced : Spaced [.number n] (String.ofList n.chars).toList := by
    have alone := @Spaced.word (.number n) [] [] .nil
    rwa [List.append_nil] at alone
  have legal : ∀ w ∈ [Word.number n], w.Legal := by
    rintro w (_ | ⟨_, ⟨⟩⟩)
    exact Word.legal_number n
  have read : Term.read (String.ofList n.chars) = .ok (.literal (String.ofList n.chars)) :=
    Term.read_of_found trivial ⟨spaced, legal⟩
  have operand : Operand.ofLiteral (String.ofList n.chars) =
      .error (.numeral (.tooLong n.digits.length)) := by
    simp only [Operand.ofLiteral, n.readInteger_chars, if_pos long, Except.mapError, bind,
      Except.bind]
  have built : Term.build 0 (.literal (String.ofList n.chars)) =
      .error ⟨0, .numeral (.tooLong n.digits.length)⟩ := by
    simp only [Term.build, operand, atDepth, Except.map, Except.mapError]
  rw [ofText_of_build read built]

/-! ### Files -/

namespace ProgramFile

theorem reporter_of_decode {path : String} {bytes : Bytes} {fault : OpenFault}
    (failed : decode path bytes = .error fault) : fault.reporter = .artifact := by
  unfold decode at failed
  split at failed
  · split at failed
    · cases failed
      rfl
    · split at failed
      · cases failed
        rfl
      · cases failed
  · split at failed
    · cases failed
      rfl
    · cases failed

theorem load_of_read {fs : Files} {path : String} {bytes : Bytes} (readable : fs.read path = .ok bytes)
    (config : Config) : load fs config path = parse config path bytes := by
  simp only [load, readable, Except.mapError, bind, Except.bind]

theorem parse_of_decode {config : Config} {path : String} {bytes : Bytes} {text : String}
    (decoded : decode path bytes = .ok text) : parse config path bytes =
      if Carrier.ofPath path = .source then
        (Executable.compile config text).mapError fun m => .load (.mismatch m)
      else (Executable.ofText config text).mapError fun f => .load (.artifact f) := by
  rw [parse, decoded]
  cases h : Carrier.ofPath path <;> rfl

end ProgramFile

theorem Text.decodeUtf8_encodeUtf8 (s : String) : Text.decodeUtf8 (Text.encodeUtf8 s) = .ok s := by
  have valid : (ByteArray.mk (Text.encodeUtf8 s)).IsValidUTF8 := s.isValidUTF8
  rw [Text.decodeUtf8, String.fromUTF8?, dif_pos valid]
  rfl

theorem Text.foldNewlines_eq_self {cs : List Char} (h : '\r' ∉ cs) : Text.foldNewlines cs = cs := by
  induction cs with
  | nil => rfl
  | cons c cs ih =>
      have first : c ≠ '\r' := fun same => h (same ▸ List.mem_cons_self)
      have others := ih fun mem => h (List.mem_cons_of_mem _ mem)
      simp [Text.foldNewlines, first, others]

theorem Numeral.not_mem_chars (n : Numeral) : '\r' ∉ n.chars := by
  intro mem
  rcases List.mem_append.mp mem with sign | digit
  · cases h : n.sign <;> rw [h] at sign <;> revert sign <;> decide
  · exact absurd rfl (Numeral.ne_of_isDigit (n.decimal _ digit) rfl)

/-- A text file with nothing but a numeral with too many digits cannot be loaded. -/
theorem ProgramFile.load_long_numeral {fs : Files} {path : String} {n : Numeral}
    (readable : fs.read path = .ok (Text.encodeUtf8 (String.ofList n.chars)))
    (kept : Carrier.ofPath path = .text) (long : 4300 < n.digits.length) (config : Config) :
    load fs config path = .error (.load (.artifact (.numeral (.tooLong n.digits.length)))) := by
  have decoded : decode path (Text.encodeUtf8 (String.ofList n.chars)) =
      .ok (String.ofList n.chars) := by
    simp only [decode, kept, Text.decodeUtf8_encodeUtf8, String.toList_ofList,
      Text.foldNewlines_eq_self n.not_mem_chars]
  rw [load_of_read readable, parse_of_decode decoded, if_neg (by rw [kept]; decide)]
  simp only [Executable.ofText, Chain.ofText_long_numeral long, bind, Except.bind, Except.mapError]

/-- The fault is that of a numeral in the text of the file, which has more digits than an integer is
read from. -/
def OpenFault.OfLongNumeral (path : String) (bytes : Bytes) (fault : OpenFault) : Prop :=
  ∃ text t, ∃ n : Numeral, ProgramFile.decode path bytes = .ok text ∧ Term.read text = .ok t ∧
    Word.number n ∈ t.words ∧ 4300 < n.digits.length ∧
    fault = .load (.artifact (.numeral (.tooLong n.digits.length)))

/-- A file that can be read gives a program, or a fault of the artifact reader, or, if it is kept as
source, a fault of the program reader; else it has a numeral with too many digits in it. -/
theorem load_fault_known (fs : Files) (config : Config) (path : String) (bytes : Bytes)
    (readable : fs.read path = .ok bytes) :
    (∃ x notice, ProgramFile.load fs config path = .ok (x, notice)) ∨
      ∃ fault, ProgramFile.load fs config path = .error fault ∧
        (fault.reporter = .artifact ∨
          (Carrier.ofPath path = .source ∧ fault.reporter = .program) ∨
          (Carrier.ofPath path ≠ .source ∧ fault.OfLongNumeral path bytes)) := by
  rw [ProgramFile.load_of_read readable]
  cases result : ProgramFile.parse config path bytes with
  | ok pair => exact .inl ⟨pair.1, pair.2, rfl⟩
  | error fault =>
      refine .inr ⟨fault, rfl, ?_⟩
      cases decoded : ProgramFile.decode path bytes with
      | error fault' =>
          have same : fault' = fault := by
            rw [ProgramFile.parse, decoded] at result
            exact Except.error.inj result
          exact .inl (same ▸ ProgramFile.reporter_of_decode decoded)
      | ok text =>
          rw [ProgramFile.parse_of_decode decoded] at result
          split at result
          next source =>
            obtain ⟨m, -, rfl⟩ := mapError_eq_error_iff.mp result
            exact .inr (.inl ⟨source, rfl⟩)
          next artifact =>
            obtain ⟨fault', failed, rfl⟩ := mapError_eq_error_iff.mp result
            rcases bind_eq_error_iff.mp failed with unread | ⟨c, -, done⟩
            · rcases Chain.known_of_ofText unread with reported | ⟨t, read, known⟩
              · exact .inl reported
              · rcases known with reported | ⟨n, mem, long, rfl⟩
                · exact .inl reported
                · exact .inr (.inr ⟨artifact, text, t, n, decoded, read, mem, long, rfl⟩)
            · cases done

/-- A packed file that is cut off after its first byte. -/
theorem cut_object_fault_known :
    (Files.mk [] [(["a.bfo"], .file #[120])]).read "a.bfo" = .ok #[120] ∧
      ∃ fault, ProgramFile.load (Files.mk [] [(["a.bfo"], .file #[120])]) {} "a.bfo" = .error fault ∧
        fault.reporter = .artifact := by
  have readable : (Files.mk [] [(["a.bfo"], .file #[120])]).read "a.bfo" = .ok #[120] := rfl
  have loaded : ProgramFile.load (Files.mk [] [(["a.bfo"], .file #[120])]) {} "a.bfo" =
      .error (.corrupt "a.bfo" (.packing .truncated)) := rfl
  rcases load_fault_known _ {} _ _ readable with ⟨x, notice, done⟩ | ⟨fault, failed, known⟩
  · rw [loaded] at done
    cases done
  · rcases known with reported | ⟨source, -⟩ | ⟨-, text, t, n, -, -, -, -, same⟩
    · exact ⟨readable, fault, failed, reported⟩
    · exact absurd source (by decide)
    · rw [loaded, same] at failed
      cases failed

/-- A text file that holds 4301 digits: no reader reports the fault. -/
theorem long_numeral_fault_foreign :
    (Files.mk [] [(["a.bft"],
        .file (Text.encodeUtf8 (String.ofList (List.replicate 4301 '9'))))]).read "a.bft" =
          .ok (Text.encodeUtf8 (String.ofList (List.replicate 4301 '9'))) ∧
      ∃ fault, ProgramFile.load (Files.mk [] [(["a.bft"],
          .file (Text.encodeUtf8 (String.ofList (List.replicate 4301 '9'))))]) {} "a.bft" =
            .error fault ∧ fault.reporter = .foreign := by
  have readable (bytes : Bytes) :
      (Files.mk [] [(["a.bft"], .file bytes)]).read "a.bft" = .ok bytes := rfl
  have nines : ∀ c ∈ List.replicate 4301 '9', c.isDigit := by
    intro c mem
    rw [List.eq_of_mem_replicate mem]
    rfl
  have long : 4300 < (List.replicate 4301 '9').length := by
    rw [List.length_replicate]
    decide
  have present : List.replicate 4301 '9' ≠ [] := List.ne_nil_of_length_pos (by omega)
  exact ⟨readable _, _, ProgramFile.load_long_numeral (n := ⟨.absent, _, present, nines⟩) (readable _)
    (by decide) long {}, rfl⟩

end TapeChain
