import TapeChain.Proofs.Files
import TapeChain.Proofs.Loading
import TapeChain.Proofs.Packing
import TapeChain.Proofs.RoundTrip
import TapeChain.Proofs.Source

/-! Saved programs. A program is kept as the text of its chain, plain or packed, and what is loaded
from the file is a program with the same chain. Which nodes were one node is not kept: the loaded
nodes are all different, and the two programs only run alike. -/
namespace TapeChain

/-! ### The characters of chain text -/

namespace Chain

/-- The characters of chain text in the canonical style. -/
def spellsWith (c : Char) : Bool :=
  Lexeme.isNamePart c || c = '<' || c = ',' || c = '>' || c = ' '

theorem all_operand (o : Operand) : (o.spell .canonical).toList.all spellsWith = true := by
  have digit (d : HexDigit) : d.name.toList.all spellsWith = true := by
    revert d
    decide
  have comma : ", ".toList.all spellsWith = true := by decide
  have opening : "Int<".toList.all spellsWith = true := by decide
  have closing : ">".toList.all spellsWith = true := by decide
  simp only [Operand.spell, Operand.digits, List.map_cons, List.map_nil,
    String.intercalate_cons_cons, String.intercalate_singleton, String.toList_append,
    List.all_append, digit, comma, opening, closing, Bool.and_self]

theorem all_piece {s : String} {after : List String} (first : s.toList.all spellsWith = true)
    (h : (String.join after).toList.all spellsWith = true) :
    (String.join (s :: after)).toList.all spellsWith = true := by
  rw [String.join_cons, String.toList_append, List.all_append, first, h, Bool.and_self]

theorem all_pieces (c : Chain) {after : List String}
    (h : (String.join after).toList.all spellsWith = true) :
    (String.join (c.pieces .canonical after)).toList.all spellsWith = true := by
  have close {after : List String} (h : (String.join after).toList.all spellsWith = true) :
      (String.join (">" :: after)).toList.all spellsWith = true := all_piece (by decide) h
  have comma {after : List String} (h : (String.join after).toList.all spellsWith = true) :
      (String.join (", " :: after)).toList.all spellsWith = true := all_piece (by decide) h
  induction c generalizing after with
  | stop => exact all_piece (by decide) h
  | loop body next ihBody ihNext =>
      exact all_piece (by decide) (ihBody (comma (ihNext (close h))))
  | move offset next ih =>
      exact all_piece (by decide) (all_piece (all_operand offset) (comma (ih (close h))))
  | add delta next ih =>
      exact all_piece (by decide) (all_piece (all_operand delta) (comma (ih (close h))))
  | output next ih => exact all_piece (by decide) (ih (close h))
  | input next ih => exact all_piece (by decide) (ih (close h))

theorem not_mem_spell (c : Chain) {ch : Char} (other : spellsWith ch = false) :
    ch ∉ (c.spell .canonical).toList := by
  intro mem
  have all : (c.spell .canonical).toList.all spellsWith = true := c.all_pieces rfl
  have fits := List.all_eq_true.mp all ch mem
  rw [other] at fits
  cases fits

theorem ofText_canonical (c : Chain) : Chain.ofText (c.spell .canonical) = .ok c :=
  Chain.ofText_of_words (c.words_spell .canonical) (c.spaced_spell .canonical)

end Chain

/-! ### What is loaded from a saved file -/

namespace ProgramFile

/-- The program is written in the form that the suffix of the path stands for. -/
inductive Saved (fs : Files) (x : Executable) (path : String) (saved : Files) : Prop
  | text (named : Path.suffix path = textSuffix) (written : saveText fs x path = .ok saved)
  | object (named : Path.suffix path = objectSuffix) (written : saveObject fs x path = .ok saved)

/-- Chain text has no line ends that could be folded. -/
theorem decode_textBytes {path : String} (kept : Carrier.ofPath path ≠ .object) (x : Executable) :
    decode path (textBytes x) = .ok (x.chain.spell .canonical) := by
  have folded := Text.foldNewlines_eq_self (x.chain.not_mem_spell (show Chain.spellsWith '\r' = false by decide))
  cases h : Carrier.ofPath path with
  | object => exact absurd h kept
  | text => simp only [decode, h, textBytes, Text.decodeUtf8_encodeUtf8, folded, String.ofList_toList]
  | source =>
      simp only [decode, h, textBytes, Text.decodeUtf8_encodeUtf8, folded, String.ofList_toList]

theorem decode_objectBytes {path : String} (kept : Carrier.ofPath path = .object) (x : Executable) :
    decode path (objectBytes x) = .ok (x.chain.spell .canonical) := by
  simp only [decode, kept, objectBytes, textBytes, Packing.unpack_pack, Text.decodeUtf8_encodeUtf8]

theorem parse_canonical {path : String} (kept : Carrier.ofPath path ≠ .source) {bytes : Bytes}
    {c : Chain} (decoded : decode path bytes = .ok (c.spell .canonical)) (config : Config) :
    ∃ notice, parse config path bytes = .ok (⟨.fresh c, config⟩, notice) := by
  rw [parse_of_decode decoded, if_neg kept, Executable.ofText, c.ofText_canonical]
  exact ⟨_, rfl⟩

theorem carrier_of_text {path : String} (named : Path.suffix path = textSuffix) :
    Carrier.ofPath path = .text := by
  rw [Carrier.ofPath, named]
  decide

theorem carrier_of_object {path : String} (named : Path.suffix path = objectSuffix) :
    Carrier.ofPath path = .object := by
  rw [Carrier.ofPath, named]
  decide

theorem load_text {fs : Files} {x : Executable} {path : String}
    (readable : fs.read path = .ok (textBytes x)) (named : Path.suffix path = textSuffix)
    (config : Config) :
    ∃ notice, load fs config path = .ok (⟨.fresh x.chain, config⟩, notice) := by
  have kept := carrier_of_text named
  rw [load_of_read readable]
  exact parse_canonical (by rw [kept]; decide) (decode_textBytes (by rw [kept]; decide) x) config

theorem load_object {fs : Files} {x : Executable} {path : String}
    (readable : fs.read path = .ok (objectBytes x)) (named : Path.suffix path = objectSuffix)
    (config : Config) :
    ∃ notice, load fs config path = .ok (⟨.fresh x.chain, config⟩, notice) := by
  have kept := carrier_of_object named
  rw [load_of_read readable]
  exact parse_canonical (by rw [kept]; decide) (decode_objectBytes kept x) config

theorem load_saved {fs saved : Files} {x : Executable} {path : String} (h : Saved fs x path saved)
    (config : Config) :
    ∃ notice, load saved config path = .ok (⟨.fresh x.chain, config⟩, notice) := by
  cases h with
  | text named written => exact load_text (Files.read_write written) named config
  | object named written => exact load_object (Files.read_write written) named config

end ProgramFile

/-! ### How it runs -/

/-- Programs with one chain run alike, whatever their nodes and configurations. -/
theorem Executable.run_iff_of_chain {x y : Executable} (coherent : x.code.Coherent)
    (coherent' : y.code.Coherent) (same : y.chain = x.chain) {m : Machine} (cells : 0 < m.tape.size) :
    (∀ fuel, ∃ r, y.run fuel m = .ok r) ∧
      ∀ o, (∃ fuel, y.run fuel m = .ok (some o)) ↔ ∃ fuel, x.run fuel m = .ok (some o) := by
  have on : ({ m with address := 0 } : Machine).onTape = true :=
    Machine.onTape_iff.mpr ⟨Int.le_refl 0, Int.natCast_pos.mpr cells⟩
  refine ⟨fun fuel => ⟨_, Executable.run_of_cells cells fuel⟩, ?_⟩
  intro o
  simp only [Executable.run_of_cells cells, Except.ok.injEq]
  rw [Executable.enter_ends_iff_walk coherent' on, Executable.enter_ends_iff_walk coherent on, same]

/-- What was saved is loaded, under any configuration, as a program with the same chain. On every
tape with a cell it ends as the saved program does: with the same ending, pointer, tape, output and
input position, or not at all. -/
theorem saved_program_runs_alike (x : Executable) (coherent : x.code.Coherent) (fs saved : Files)
    (path : String) (written : ProgramFile.Saved fs x path saved) (config : Config) :
    ∃ y notice, ProgramFile.load saved config path = .ok (y, notice) ∧ y.chain = x.chain ∧
      y.config = config ∧
      ∀ m : Machine, 0 < m.tape.size →
        (∀ fuel, ∃ r, y.run fuel m = .ok r) ∧
          ∀ o, (∃ fuel, y.run fuel m = .ok (some o)) ↔ ∃ fuel, x.run fuel m = .ok (some o) := by
  obtain ⟨notice, loaded⟩ := ProgramFile.load_saved written config
  have same : (Executable.mk (.fresh x.chain) config).chain = x.chain := Linked.fresh_chain x.chain
  refine ⟨_, notice, loaded, same, rfl, ?_⟩
  intro m cells
  exact Executable.run_iff_of_chain coherent (Linked.fresh_coherent x.chain) same cells

/-- Two equal loops that are one node, saved as text under a suffix in capital letters and as an
object, and loaded for the other engine. -/
theorem equal_loops_saved_run_alike :
    let p : Program := .loop (.loop .done .done) (.loop (.loop .done .done) .done)
    let x : Executable := ⟨p.lower, { inlineDepth := 1 }⟩
    let fs : Files := ⟨["w"], [(["w"], .folder)]⟩
    let config : Config := { backend := .interpreted }
    x.code.Coherent ∧
      ∀ path ∈ ["a.b.BFT", "/w/.x.bfo"], ∃ saved, ProgramFile.Saved fs x path saved ∧
        ∃ y notice, ProgramFile.load saved config path = .ok (y, notice) ∧ y.chain = x.chain ∧
          y.config = config ∧
          ∀ m : Machine, 0 < m.tape.size →
            (∀ fuel, ∃ r, y.run fuel m = .ok r) ∧
              ∀ o, (∃ fuel, y.run fuel m = .ok (some o)) ↔ ∃ fuel, x.run fuel m = .ok (some o) := by
  intro p x fs config
  have coherent : x.code.Coherent := p.lower_coherent
  have text : ProgramFile.Saved fs x "a.b.BFT"
      (fs.put ["w", "a.b.BFT"] (.file (ProgramFile.textBytes x))) := .text rfl rfl
  have object : ProgramFile.Saved fs x "/w/.x.bfo"
      (fs.put ["w", ".x.bfo"] (.file (ProgramFile.objectBytes x))) := .object rfl rfl
  refine ⟨coherent, ?_⟩
  rintro path (_ | ⟨_, _ | ⟨_, ⟨⟩⟩⟩)
  · exact ⟨_, text, saved_program_runs_alike x coherent fs _ _ text config⟩
  · exact ⟨_, object, saved_program_runs_alike x coherent fs _ _ object config⟩

end TapeChain
