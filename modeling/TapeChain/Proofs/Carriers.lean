import TapeChain.Proofs.Persistence

/-! One text, given directly or kept in a file. Plain files have their line ends folded when they are
read, packed ones do not; to the reader of chain text a line end is a blank between words, and to the
reader of source a comment. So the text is the same program everywhere, or fails everywhere in the
same way; only the places that a message names may differ. -/
namespace TapeChain

/-! ### Folded line ends -/

namespace Text

/-- The text as it is read from a plain file. -/
def folded (text : String) : String := String.ofList (foldNewlines text.toList)

/-- A carriage return before a line feed is dropped, another one becomes a line feed. -/
theorem foldNewlines_cons (c : Char) (cs : List Char) :
    foldNewlines (c :: cs) = foldNewlines cs ∨
      foldNewlines (c :: cs) = (if c = '\r' then '\n' else c) :: foldNewlines cs := by
  generalize whole : c :: cs = text
  fun_cases foldNewlines text with
  | case1 => cases whole
  | case2 rest =>
      cases whole
      left
      simp [foldNewlines]
  | case3 =>
      cases whole
      exact .inr rfl

/-- What has no carriage return in it stays as it is, in front of the rest. -/
theorem foldNewlines_append {u : List Char} (clean : '\r' ∉ u) (cs : List Char) :
    foldNewlines (u ++ cs) = u ++ foldNewlines cs := by
  induction u with
  | nil => rfl
  | cons c u ih =>
      have first : c ≠ '\r' := fun same => clean (same ▸ List.mem_cons_self)
      have others := ih fun mem => clean (List.mem_cons_of_mem _ mem)
      simp [foldNewlines, first, others]

/-- What has no line feed in it was there before folding. -/
theorem split_of_foldNewlines {u rest cs : List Char} (clean : '\n' ∉ u)
    (h : foldNewlines cs = u ++ rest) : ∃ cs', cs = u ++ cs' ∧ foldNewlines cs' = rest := by
  induction u generalizing cs with
  | nil => exact ⟨cs, rfl, h⟩
  | cons d u ih =>
      have first : '\n' ≠ d := fun same => clean (same ▸ List.mem_cons_self)
      have others : '\n' ∉ u := fun mem => clean (List.mem_cons_of_mem _ mem)
      unfold foldNewlines at h
      split at h
      · cases h
      · exact absurd (List.cons.inj h).1 first
      · next c cs _ =>
          obtain ⟨same, later⟩ := List.cons.inj h
          obtain ⟨cs', rfl, folded⟩ := ih others later
          split at same
          · exact absurd same first
          · exact ⟨cs', by rw [same]; rfl, folded⟩

end Text

open Text (foldNewlines folded)

/-! ### Line ends between words -/

theorem Word.Legal.not_mem {w : Word} (legal : w.Legal) {c : Char} (newline : c = '\r' ∨ c = '\n') :
    c ∉ w.text.toList := by
  have part : Lexeme.isNamePart c = false := by rcases newline with rfl | rfl <;> rfl
  have start : Lexeme.isNameStart c = false := by rcases newline with rfl | rfl <;> rfl
  intro mem
  rcases legal.cases with mark | ⟨d, ds, rfl, begins, parts⟩ | ⟨n, rfl⟩
  · rcases mark with rfl | rfl | rfl <;> rcases newline with rfl | rfl <;> revert mem <;> decide
  · rw [Word.name, String.toList_ofList] at mem
    rcases List.mem_cons.mp mem with rfl | later
    · exact absurd begins (ne_true_of_eq_false start)
    · exact absurd (parts c later) (ne_true_of_eq_false part)
  · rw [Word.number, String.toList_ofList] at mem
    rcases List.mem_append.mp mem with sign | digit
    · cases h : n.sign <;> rw [h] at sign <;> rcases newline with rfl | rfl <;> revert sign <;> decide
    · have decimal := n.decimal c digit
      rcases newline with rfl | rfl <;> cases decimal

namespace Spaced

variable {ws : List Word} {cs : List Char}

theorem fold (h : Spaced ws cs) (legal : ∀ w ∈ ws, w.Legal) : Spaced ws (foldNewlines cs) := by
  induction h with
  | nil => exact .nil
  | @blank c ws cs space _ ih =>
      rcases Text.foldNewlines_cons c cs with same | same <;> rw [same]
      · exact ih legal
      · refine .blank ?_ (ih legal)
        split
        · decide
        · exact space
  | @word w ws cs _ ih =>
      obtain ⟨first, others⟩ := List.forall_mem_cons.mp legal
      rw [Text.foldNewlines_append (first.not_mem (.inl rfl))]
      exact .word (ih others)

theorem of_fold (h : Spaced ws (foldNewlines cs)) (legal : ∀ w ∈ ws, w.Legal) : Spaced ws cs := by
  generalize whole : foldNewlines cs = text at h
  induction h generalizing cs with
  | nil =>
      unfold foldNewlines at whole
      split at whole
      · exact .nil
      · cases whole
      · cases whole
  | @blank c ws rest space _ ih =>
      unfold foldNewlines at whole
      split at whole
      · cases whole
      · exact .blank (by decide) (.blank (by decide) (ih legal (List.cons.inj whole).2))
      · next d cs _ =>
          obtain ⟨same, later⟩ := List.cons.inj whole
          refine .blank ?_ (ih legal later)
          split at same
          · next carriage => rw [carriage]; decide
          · rw [same]; exact space
  | @word w ws rest _ ih =>
      obtain ⟨first, others⟩ := List.forall_mem_cons.mp legal
      obtain ⟨cs', rfl, folded⟩ := Text.split_of_foldNewlines (first.not_mem (.inr rfl)) whole
      exact .word (ih others folded)

end Spaced

theorem Term.read_folded_iff {text : String} {t : Term} :
    Term.read (folded text) = .ok t ↔ Term.read text = .ok t := by
  constructor
  · intro h
    obtain ⟨proper, spaced, legal⟩ := Term.found_of_read h
    rw [folded, String.toList_ofList] at spaced
    exact Term.read_of_found proper ⟨spaced.of_fold legal, legal⟩
  · intro h
    obtain ⟨proper, spaced, legal⟩ := Term.found_of_read h
    refine Term.read_of_found proper ⟨?_, legal⟩
    rw [folded, String.toList_ofList]
    exact spaced.fold legal

/-- Chain text with its line ends folded describes the same chain or has the same fault, unless it is
not well formed; then it is not well formed either way. -/
theorem Chain.ofText_folded (text : String) :
    Chain.ofText (folded text) = Chain.ofText text ∨
      ∃ f f', Chain.ofText (folded text) = .error (.malformed f) ∧
        Chain.ofText text = .error (.malformed f') := by
  cases plain : Term.read text with
  | ok t =>
      left
      simp only [ofText, plain, Term.read_folded_iff.mpr plain]
  | error f' =>
      cases read : Term.read (folded text) with
      | ok t =>
          rw [Term.read_folded_iff.mp read] at plain
          cases plain
      | error f =>
          right
          refine ⟨f, f', ?_, ?_⟩
          · simp only [ofText, read, Except.mapError, bind, Except.bind]
          · simp only [ofText, plain, Except.mapError, bind, Except.bind]

/-! ### Line ends between commands -/

theorem Token.scanFrom_put_down {c : Char} (h : ofChar? c = none) (held : Option Token)
    (cs : List Char) : scanFrom held (c :: cs) = held.toList ++ scanFrom none cs := by
  cases held <;> simp only [scanFrom, h] <;> rfl

theorem Token.scanFrom_foldNewlines (held : Option Token) (cs : List Char) :
    scanFrom held (foldNewlines cs) = scanFrom held cs := by
  fun_induction foldNewlines cs generalizing held with
  | case1 => rfl
  | case2 cs ih => rw [scanFrom_put_down rfl, scanFrom_put_down rfl, scanFrom_comment rfl, ih]
  | case3 c cs _ ih =>
      by_cases carriage : c = '\r'
      · rw [if_pos carriage, carriage, scanFrom_put_down rfl, scanFrom_put_down rfl, ih]
      · rw [if_neg carriage]
        simp only [scanFrom, ih]

theorem Program.brackets_foldNewlines (cs : List Char) :
    brackets (foldNewlines cs) = brackets cs := by
  fun_induction foldNewlines cs with
  | case1 => rfl
  | case2 cs ih => exact ih
  | case3 c cs _ ih =>
      by_cases carriage : c = '\r'
      · rw [if_pos carriage, carriage]
        exact ih
      · simp only [if_neg carriage, brackets, List.filter_cons] at ih ⊢
        rw [ih]

/-- Source with its line ends folded is the same program, or no program either way. -/
theorem Program.read_folded (text : String) :
    read (folded text) = read text ∨
      ∃ m m', read (folded text) = .error m ∧ read text = .error m' := by
  have brackets : brackets (folded text).toList = brackets text.toList := by
    rw [folded, String.toList_ofList, brackets_foldNewlines]
  have tokens : Token.scan (folded text) = Token.scan text := by
    rw [Token.scan, folded, String.toList_ofList, Token.scanFrom_foldNewlines, Token.scan]
  have balanced := isNone_mismatch?_of_brackets brackets
  rw [read_eq, read_eq]
  cases h : mismatch? text with
  | none =>
      rw [h, Option.isNone_none, Option.isNone_iff_eq_none] at balanced
      rw [balanced, tokens]
      exact .inl rfl
  | some m' =>
      rw [h] at balanced
      cases h' : mismatch? (folded text) with
      | none =>
          rw [h'] at balanced
          cases balanced
      | some m => exact .inr ⟨m, m', rfl, rfl⟩

/-! ### Programs and the classes of their faults -/

/-- The faults that a caller can tell apart without their messages. -/
inductive FaultClass where
  | artifact
  | unknownSymbol
  | numeral
  | bareInteger
  | program
  | notAProgram
  | file
  deriving DecidableEq

def ArtifactFault.faultClass : ArtifactFault → FaultClass
  | .numeral _ => .numeral
  | .symbol (.unknown _) => .unknownSymbol
  | .symbol .bareInteger => .bareInteger
  | _ => .artifact

def Mismatch.faultClass (_ : Mismatch) : FaultClass := .program

def LoadFault.faultClass : LoadFault → FaultClass
  | .mismatch m => m.faultClass
  | .artifact fault => fault.faultClass
  | .illegal _ => .notAProgram
  | .notANode _ => .notAProgram

def OpenFault.faultClass : OpenFault → FaultClass
  | .file _ => .file
  | .corrupt _ _ => .artifact
  | .notText _ _ => .artifact
  | .load fault => fault.faultClass

/-- The chain of what was made, or the class of the fault. -/
def verdict {ε : Type} (classify : ε → FaultClass) :
    Except ε (Executable × Notice) → Except FaultClass Chain
  | .ok (x, _) => .ok x.chain
  | .error fault => .error (classify fault)

theorem verdict_mapError {ε ε' : Type} (f : ε → ε') (classify : ε' → FaultClass)
    (r : Except ε (Executable × Notice)) :
    verdict classify (r.mapError f) = verdict (fun fault => classify (f fault)) r := by
  cases r <;> rfl

namespace Executable

theorem verdict_ofText (config : Config) (text : String) :
    verdict ArtifactFault.faultClass (ofText config text) =
      (Chain.ofText text).mapError ArtifactFault.faultClass := by
  cases h : Chain.ofText text with
  | error fault => simp only [ofText, h, bind, Except.bind, verdict, Except.mapError]
  | ok c =>
      simp only [ofText, h, bind, Except.bind, pure, Except.pure, verdict, chain, Linked.fresh_chain,
        Except.mapError]

theorem verdict_compile (config : Config) (text : String) :
    verdict Mismatch.faultClass (compile config text) =
      ((Program.read text).map Program.chain).mapError Mismatch.faultClass := by
  cases h : Program.read text with
  | error m => simp only [compile, h, bind, Except.bind, verdict, Except.map, Except.mapError]
  | ok p =>
      simp only [compile, h, bind, Except.bind, pure, Except.pure, verdict, chain, Program.lower_chain,
        Except.map, Except.mapError]

theorem verdict_ofText_folded (config : Config) (text : String) :
    verdict ArtifactFault.faultClass (ofText config (folded text)) =
      verdict ArtifactFault.faultClass (ofText config text) := by
  rw [verdict_ofText, verdict_ofText]
  rcases Chain.ofText_folded text with same | ⟨f, f', folded, plain⟩
  · rw [same]
  · rw [folded, plain]
    rfl

theorem verdict_compile_folded (config : Config) (text : String) :
    verdict Mismatch.faultClass (compile config (folded text)) =
      verdict Mismatch.faultClass (compile config text) := by
  rw [verdict_compile, verdict_compile]
  rcases Program.read_folded text with same | ⟨m, m', folded, plain⟩
  · rw [same]
  · rw [folded, plain]
    rfl

end Executable

/-! ### Files that keep a text -/

/-- The text that comes out of a file of this kind. -/
def Carrier.returned (text : String) : Carrier → String
  | .object => text
  | _ => folded text

namespace ProgramFile

/-- The file holds the text in the form that its suffix stands for. -/
inductive Keeps (fs : Files) (text path : String) : Carrier → Prop
  | text : Path.suffix path = textSuffix → fs.read path = .ok (Text.encodeUtf8 text) →
      Keeps fs text path .text
  | object {packed : Bytes} : Path.suffix path = objectSuffix → fs.read path = .ok packed →
      Packing.unpack packed = .ok (Text.encodeUtf8 text) → Keeps fs text path .object
  | source : Path.suffix path ≠ textSuffix → Path.suffix path ≠ objectSuffix →
      fs.read path = .ok (Text.encodeUtf8 text) → Keeps fs text path .source

/-- The file is read as the text. -/
def Returns (fs : Files) (path text : String) : Prop :=
  ∃ bytes, fs.read path = .ok bytes ∧ decode path bytes = .ok text

variable {fs : Files} {text path : String} {carrier : Carrier}

theorem Keeps.ofPath_eq (h : Keeps fs text path carrier) : Carrier.ofPath path = carrier := by
  cases h with
  | text named _ => exact carrier_of_text named
  | object named _ _ => exact carrier_of_object named
  | source noText noObject _ => rw [Carrier.ofPath, if_neg noObject, if_neg noText]

theorem Keeps.returns (h : Keeps fs text path carrier) : Returns fs path (carrier.returned text) := by
  have kind := h.ofPath_eq
  cases h with
  | text _ held =>
      refine ⟨_, held, ?_⟩
      simp only [decode, kind, Text.decodeUtf8_encodeUtf8]
      rfl
  | object _ held unpacked =>
      refine ⟨_, held, ?_⟩
      simp only [decode, kind, unpacked, Text.decodeUtf8_encodeUtf8]
      rfl
  | source _ _ held =>
      refine ⟨_, held, ?_⟩
      simp only [decode, kind, Text.decodeUtf8_encodeUtf8]
      rfl

theorem Keeps.verdict_load (h : Keeps fs text path carrier) (kind : carrier ≠ .source)
    (config : Config) :
    verdict OpenFault.faultClass (load fs config path) =
      verdict ArtifactFault.faultClass (Executable.ofText config (carrier.returned text)) := by
  obtain ⟨bytes, held, decoded⟩ := h.returns
  rw [load_of_read held, parse_of_decode decoded, h.ofPath_eq, if_neg kind, verdict_mapError]
  rfl

theorem Keeps.verdict_load_source (h : Keeps fs text path .source) (config : Config) :
    verdict OpenFault.faultClass (load fs config path) =
      verdict Mismatch.faultClass (Executable.compile config (folded text)) := by
  obtain ⟨bytes, held, decoded⟩ := h.returns
  rw [load_of_read held, parse_of_decode decoded, h.ofPath_eq, if_pos rfl, verdict_mapError]
  rfl

end ProgramFile

/-- One text is one program, whatever carries it. Chain text given directly, in a text file and
packed in an object file makes the same chain, or fails with the same class of fault; source given
directly and in a file under any other suffix makes the same chain, or is refused by the program
reader. This is so although the line ends of plain files are folded and those of packed ones are not.
-/
theorem one_text_one_program (fs : Files) (config : Config) (text asText asObject asSource : String)
    (keptText : ProgramFile.Keeps fs text asText .text)
    (keptObject : ProgramFile.Keeps fs text asObject .object)
    (keptSource : ProgramFile.Keeps fs text asSource .source) :
    let direct := verdict ArtifactFault.faultClass (Executable.ofText config text)
    let compiled := verdict Mismatch.faultClass (Executable.compile config text)
    let loaded := fun path => verdict OpenFault.faultClass (ProgramFile.load fs config path)
    (loaded asText = direct ∧ loaded asObject = direct) ∧
      (loaded asSource = compiled ∧ ∀ c, compiled = .error c → c = .program) ∧
      ProgramFile.Returns fs asText (folded text) ∧ ProgramFile.Returns fs asObject text ∧
      ProgramFile.Returns fs asSource (folded text) := by
  intro direct compiled loaded
  refine ⟨⟨?_, ?_⟩, ⟨?_, ?_⟩, keptText.returns, keptObject.returns, keptSource.returns⟩
  · exact (keptText.verdict_load (by decide) config).trans
      (Executable.verdict_ofText_folded config text)
  · exact keptObject.verdict_load (by decide) config
  · exact (keptSource.verdict_load_source config).trans
      (Executable.verdict_compile_folded config text)
  · intro c failed
    cases made : Executable.compile config text with
    | ok pair =>
        simp only [compiled, made] at failed
        cases failed
    | error m =>
        simp only [compiled, made] at failed
        cases failed
        rfl

/-- Chain text with its line ends in the two forms that are folded, in all three files. As source it
is two moves, which the comment between them keeps apart. -/
theorem broken_lines_one_program :
    let text := "OutputData<\r\nStop\r>"
    let fs : Files := ⟨[], [(["a.bft"], .file (Text.encodeUtf8 text)),
      (["a.bfo"], .file (Packing.pack (Text.encodeUtf8 text))), (["a"], .file (Text.encodeUtf8 text))]⟩
    let loaded := fun path => verdict OpenFault.faultClass (ProgramFile.load fs {} path)
    loaded "a.bft" = .ok (.output .stop) ∧ loaded "a.bfo" = .ok (.output .stop) ∧
      loaded "a" = .ok (.move (.encode (-1)) (.move (.encode 1) .stop)) ∧
      ProgramFile.Returns fs "a.bft" "OutputData<\nStop\n>" := by
  intro text fs loaded
  have asText : ProgramFile.Keeps fs text "a.bft" .text := .text rfl rfl
  have asObject : ProgramFile.Keeps fs text "a.bfo" .object :=
    .object rfl rfl (Packing.unpack_pack _)
  have asSource : ProgramFile.Keeps fs text "a" .source := .source (by decide) (by decide) rfl
  obtain ⟨⟨plain, packed⟩, ⟨source, -⟩, returned, -⟩ :=
    one_text_one_program fs {} text _ _ _ asText asObject asSource
  have direct : verdict ArtifactFault.faultClass (Executable.ofText {} text) =
      .ok (.output .stop) := by
    have letters : text.toList = "OutputData".toList ++ ("<".toList ++ '\r' :: '\n' ::
        ("Stop".toList ++ '\r' :: (">".toList ++ []))) := by
      decide
    have spaced : Spaced ((Chain.output .stop).words .canonical) text.toList := by
      rw [letters]
      exact .word (.word (.blank (by decide) (.blank (by decide) (.word (.blank (by decide)
        (.word .nil))))))
    rw [Executable.verdict_ofText, Chain.ofText_of_words (Chain.words_spell _ _) spaced]
    rfl
  have compiled : verdict Mismatch.faultClass (Executable.compile {} text) =
      .ok (.move (.encode (-1)) (.move (.encode 1) .stop)) := by
    have read : Program.read text = .ok (.move (-1) (.move 1 .done)) := by decide
    rw [Executable.verdict_compile, read]
    rfl
  have folded : folded text = "OutputData<\nStop\n>" := by
    have letters : foldNewlines text.toList = "OutputData<\nStop\n>".toList := by decide
    rw [folded, letters, String.ofList_toList]
  exact ⟨plain.trans direct, packed.trans direct, source.trans compiled, folded ▸ returned⟩

end TapeChain
