import TapeChain.Proofs.Persistence

/-! Chain text taken for source. It has no square brackets, so it always reads as a program: angle
brackets are pointer steps, commas are reads, and all else is a comment. The program is not the one that
the text stands for, since every run of pointer steps is a move and there are more of them than the
chain has moves. -/
namespace TapeChain

/-- The number of moves in a chain. -/
def Chain.moves : Chain → Nat
  | .stop => 0
  | .loop body next => body.moves + next.moves
  | .move _ next => next.moves + 1
  | .add _ next => next.moves
  | .output next => next.moves
  | .input next => next.moves

/-- The number of runs of pointer steps in a text, each counted at its last character. -/
def pointerRuns : List Char → Nat
  | [] => 0
  | c :: cs =>
    if Axis.pointer.has c && cs.head?.all (fun d => !Axis.pointer.has d) then pointerRuns cs + 1
    else pointerRuns cs

namespace pointerRuns

theorem le_cons (c : Char) (cs : List Char) : pointerRuns cs ≤ pointerRuns (c :: cs) := by
  rw [pointerRuns]
  split
  · exact Nat.le_succ _
  · exact Nat.le_refl _

theorem le_append (front cs : List Char) : pointerRuns cs ≤ pointerRuns (front ++ cs) := by
  induction front with
  | nil => exact Nat.le_refl _
  | cons c front ih => exact Nat.le_trans ih (le_cons c _)

theorem other {c : Char} (h : Axis.pointer.has c = false) (cs : List Char) :
    pointerRuns (c :: cs) = pointerRuns cs := by
  simp only [pointerRuns, h, Bool.false_and, Bool.false_eq_true, if_false]

theorem last {c : Char} (h : Axis.pointer.has c = true) {cs : List Char}
    (stop : Axis.pointer.Ends cs) : pointerRuns (c :: cs) = pointerRuns cs + 1 := by
  cases cs with
  | nil => simp [pointerRuns, h]
  | cons d cs =>
      have ends : Axis.pointer.has d = false := eq_false_of_ne_true (stop d rfl)
      rw [pointerRuns, h, List.head?_cons, Option.all_some, ends]
      rfl

theorem run {cs : List Char} {steps : List Char} (filled : steps ≠ [])
    (all : ∀ c ∈ steps, Axis.pointer.has c) (stop : Axis.pointer.Ends cs) :
    pointerRuns (steps ++ cs) = pointerRuns cs + 1 := by
  induction steps with
  | nil => exact absurd rfl filled
  | cons c steps ih =>
      obtain ⟨first, others⟩ := List.forall_mem_cons.mp all
      cases steps with
      | nil => exact last first stop
      | cons d steps =>
          have joined : Axis.pointer.has d = true := others d List.mem_cons_self
          rw [← ih (List.cons_ne_nil _ _) others]
          simp [pointerRuns, joined]

theorem plain {steps : List Char} (all : ∀ c ∈ steps, Axis.pointer.has c = false)
    (cs : List Char) : pointerRuns (steps ++ cs) = pointerRuns cs := by
  induction steps with
  | nil => rfl
  | cons c steps ih =>
      obtain ⟨first, others⟩ := List.forall_mem_cons.mp all
      rw [List.cons_append, other first, ih others]

end pointerRuns

/-- Every run of pointer steps is one move of the chain that is read. -/
theorem Reads.pointerRuns_eq {cs rest : List Char} {c : Chain} (h : Reads cs c rest) :
    pointerRuns cs = c.moves + pointerRuns rest := by
  induction h with
  | finish => rfl
  | closing rest => exact (Nat.zero_add _).symm
  | @comment ch cs chain rest comment reads ih =>
      have other : Axis.pointer.has ch = false := by
        apply eq_false_of_ne_true
        intro step
        rw [Axis.ofChar?_eq step] at comment
        cases comment
      rw [pointerRuns.other other, ih]
  | @run a steps cs chain rest filled all stop reads ih =>
      cases a with
      | pointer =>
          rw [pointerRuns.run filled all stop, ih, Axis.node, Chain.moves]
          omega
      | data =>
          have others : ∀ c ∈ steps, Axis.pointer.has c = false := by
            intro c mem
            rcases Axis.has_iff.mp (all c mem) with rfl | rfl <;> decide
          rw [pointerRuns.plain others, ih, Axis.node, Chain.moves]
  | output reads ih => rw [pointerRuns.other (by decide), ih, Chain.moves]
  | input reads ih => rw [pointerRuns.other (by decide), ih, Chain.moves]
  | loop body next ihBody ihNext =>
      rw [pointerRuns.other (by decide), ihBody, pointerRuns.other (by decide), ihNext, Chain.moves,
        Nat.add_assoc]

theorem Program.mismatchFrom?_eq_none {cs : List Char} (noOpening : '[' ∉ cs) (noClosing : ']' ∉ cs)
    (index : Nat) : mismatchFrom? [] index cs = none := by
  induction cs generalizing index with
  | nil => rfl
  | cons c cs ih =>
      obtain ⟨hopen, restOpen⟩ := not_or.mp (mt List.mem_cons.mpr noOpening)
      obtain ⟨hclose, restClose⟩ := not_or.mp (mt List.mem_cons.mpr noClosing)
      rw [mismatchFrom?_plain (Ne.symm hopen) (Ne.symm hclose)]
      exact ih restOpen restClose _

namespace Chain

/-- The runs of pointer steps in a text that is given in pieces. -/
def runsIn (pieces : List String) : Nat := pointerRuns (String.join pieces).toList

theorem ends_piece {s : String} {c : Char} (first : s.toList.head? = some c)
    (letter : Axis.pointer.has c = false) (after : List String) :
    Axis.pointer.Ends (String.join (s :: after)).toList := by
  intro d mem
  rw [String.join_cons, String.toList_append, List.head?_append, first] at mem
  cases mem
  exact ne_true_of_eq_false letter

theorem runsIn_le_piece (s : String) (after : List String) : runsIn after ≤ runsIn (s :: after) := by
  rw [runsIn, runsIn, String.join_cons, String.toList_append]
  exact pointerRuns.le_append _ _

theorem runsIn_opening (head : String)
    (plain : head.toList.all (fun c => !Axis.pointer.has c) = true) {after : List String}
    (ends : Axis.pointer.Ends (String.join after).toList) :
    runsIn ((head ++ "<") :: after) = runsIn after + 1 := by
  have others : ∀ c ∈ head.toList, Axis.pointer.has c = false := by
    intro c mem
    simpa only [Bool.not_eq_true'] using List.all_eq_true.mp plain c mem
  rw [runsIn, String.join_cons, String.toList_append, String.toList_append, List.append_assoc,
    pointerRuns.plain others]
  exact pointerRuns.last rfl ends

theorem runsIn_move (offset : Operand) (after : List String) :
    runsIn after + 1 ≤ runsIn ("AddPointer<" :: offset.spell .canonical :: after) := by
  have first : (offset.spell .canonical).toList.head? = some 'I' := by
    rw [Operand.spell, String.toList_append, String.toList_append, List.append_assoc,
      List.head?_append]
    rfl
  have opening : runsIn ("AddPointer<" :: offset.spell .canonical :: after) =
      runsIn (offset.spell .canonical :: after) + 1 :=
    runsIn_opening "AddPointer" (by decide) (ends_piece first rfl after)
  rw [opening]
  exact Nat.succ_le_succ (runsIn_le_piece _ _)

/-- A chain has no more moves than its text has runs of pointer steps. Unless the text is a single
word, this holds even without the bracket that closes it. -/
theorem moves_le_runsIn (c : Chain) (after : List String) :
    c.moves + runsIn after ≤ runsIn (c.pieces .canonical after) ∧
      (c ≠ .stop → c.moves + runsIn (">" :: after) ≤ runsIn (c.pieces .canonical after)) := by
  have both {c : Chain} {after : List String}
      (h : c.moves + runsIn (">" :: after) ≤ runsIn (c.pieces .canonical after)) :
      c.moves + runsIn after ≤ runsIn (c.pieces .canonical after) ∧
        (c ≠ .stop → c.moves + runsIn (">" :: after) ≤ runsIn (c.pieces .canonical after)) :=
    ⟨Nat.le_trans (Nat.add_le_add_left (runsIn_le_piece ">" after) _) h, fun _ => h⟩
  induction c generalizing after with
  | stop =>
      refine ⟨?_, absurd rfl⟩
      rw [moves, Nat.zero_add]
      exact runsIn_le_piece _ _
  | loop body next ihBody ihNext =>
      apply both
      have inNext := (ihNext (">" :: after)).1
      have inBody := (ihBody (", " :: next.pieces .canonical (">" :: after))).1
      have comma := runsIn_le_piece ", " (next.pieces .canonical (">" :: after))
      have opening := runsIn_le_piece "Loop<"
        (body.pieces .canonical (", " :: next.pieces .canonical (">" :: after)))
      simp only [moves, pieces]
      omega
  | move offset next ih =>
      apply both
      have inNext := (ih (">" :: after)).1
      have comma := runsIn_le_piece ", " (next.pieces .canonical (">" :: after))
      have opening := runsIn_move offset (", " :: next.pieces .canonical (">" :: after))
      simp only [moves, pieces]
      omega
  | add delta next ih =>
      apply both
      have inNext := (ih (">" :: after)).1
      have comma := runsIn_le_piece ", " (next.pieces .canonical (">" :: after))
      have operand := runsIn_le_piece (delta.spell .canonical)
        (", " :: next.pieces .canonical (">" :: after))
      have opening := runsIn_le_piece "AddData<"
        (delta.spell .canonical :: ", " :: next.pieces .canonical (">" :: after))
      simp only [moves, pieces]
      omega
  | output next ih =>
      apply both
      exact Nat.le_trans (ih (">" :: after)).1 (runsIn_le_piece _ _)
  | input next ih =>
      apply both
      exact Nat.le_trans (ih (">" :: after)).1 (runsIn_le_piece _ _)

/-- Chain text has no brackets of its own, so it is a program; but not the one it stands for. -/
theorem read_spell (c : Chain) :
    ∃ p, Program.read (c.spell .canonical) = .ok p ∧ (p.chain = c ↔ c = .stop) := by
  have balanced : Program.mismatch? (c.spell .canonical) = none :=
    Program.mismatchFrom?_eq_none (c.not_mem_spell (by decide)) (c.not_mem_spell (by decide)) 0
  have read : Program.read (c.spell .canonical) =
      .ok (Program.ofTokens (Token.scan (c.spell .canonical))) := by
    rw [Program.read_eq, balanced]
  refine ⟨_, read, ?_, ?_⟩
  · intro same
    by_contra other
    have runs : runsIn (c.pieces .canonical []) =
        (Program.ofTokens (Token.scan (c.spell .canonical))).chain.moves :=
      (Program.reads_of_read read).pointerRuns_eq
    have more := (c.moves_le_runsIn []).2 other
    have one : runsIn [">"] = 1 := rfl
    rw [same] at runs
    omega
  · rintro rfl
    rfl

end Chain

end TapeChain
