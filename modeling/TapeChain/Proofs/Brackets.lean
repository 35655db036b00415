import Mathlib.Order.Bounds.Basic
import TapeChain.Proofs.Reading

/-! Brackets by counting. A text balances if no prefix closes more brackets than it opens and the
whole closes as many as it opens. The reader keeps the open brackets on a stack; with `Opened` the
stack is tied to the text read so far, and what the reader says in the end follows: nothing of text
that balances, the first bracket that closes too much, or else the last one that is never closed. -/
namespace TapeChain

structure Balanced (cs : List Char) : Prop where
  ahead : ∀ u, u <+: cs → u.count ']' ≤ u.count '['
  even : cs.count '[' = cs.count ']'

/-- The text up to and with index `i` closes more brackets than it opens. -/
def Overclosed (cs : List Char) (i : Nat) : Prop :=
  ∃ u, u <+: cs ∧ u.length = i + 1 ∧ u.count '[' < u.count ']'

/-- The bracket at `i` is closed by the one at `k`: the text between them balances. -/
def Partners (cs : List Char) (i k : Nat) : Prop :=
  ∃ u w v, cs = u ++ '[' :: (w ++ ']' :: v) ∧ Balanced w ∧
    i = u.length ∧ k = u.length + 1 + w.length

/-- An opening bracket stands at `i`, and none closes it. -/
def Unclosed (cs : List Char) (i : Nat) : Prop := cs[i]? = some '[' ∧ ∀ k, ¬ Partners cs i k

theorem not_overclosed {cs : List Char} (ahead : ∀ u, u <+: cs → u.count ']' ≤ u.count '[')
    (i : Nat) : ¬ Overclosed cs i := by
  rintro ⟨u, front, -, more⟩
  exact absurd (ahead u front) (Nat.not_le_of_lt more)

namespace Balanced

variable {u v w : List Char} {c : Char}

theorem nil : Balanced [] := by
  refine ⟨?_, rfl⟩
  intro u h
  rw [List.prefix_nil.mp h]
  exact Nat.le_refl _

theorem plain (hopen : c ≠ '[') (hclose : c ≠ ']') : Balanced [c] := by
  have unclosed : [c].count ']' = 0 := List.count_eq_zero_of_not_mem (by simp [Ne.symm hclose])
  refine ⟨?_, ?_⟩
  · intro u h
    have few := h.count_le ']'
    omega
  · rw [unclosed, List.count_eq_zero_of_not_mem (by simp [Ne.symm hopen])]

theorem append (hu : Balanced u) (hv : Balanced v) : Balanced (u ++ v) := by
  have evenU := hu.even
  refine ⟨?_, ?_⟩
  · rintro x ⟨rest, split⟩
    rcases List.append_eq_append_iff.mp split with ⟨y, rfl, -⟩ | ⟨y, rfl, rfl⟩
    · exact hu.ahead x (List.prefix_append x y)
    · have ahead := hv.ahead y (List.prefix_append y rest)
      simp only [List.count_append]
      omega
  · simp only [List.count_append, hu.even, hv.even]

theorem enclose (h : Balanced w) : Balanced ('[' :: (w ++ [']'])) := by
  have even := h.even
  refine ⟨?_, ?_⟩
  · intro x hx
    rcases List.prefix_cons_iff.mp hx with rfl | ⟨y, rfl, hy⟩
    · exact Nat.le_refl _
    · rcases List.prefix_concat_iff.mp hy with rfl | hy
      · simp [even]
      · have ahead := h.ahead y hy
        simp only [List.count_cons_self, List.count_cons_of_ne (by decide : '[' ≠ ']')]
        omega
  · simp [even]

/-- What closes too much begins with text that balances and a closing bracket. -/
theorem exists_of_count_lt (more : u.count '[' < u.count ']') :
    ∃ w v, u = w ++ ']' :: v ∧ Balanced w := by
  induction hn : u.length using Nat.strongRecOn generalizing u with
  | ind n ih =>
      rcases List.eq_nil_or_concat u with rfl | ⟨w, c, rfl⟩
      · exact absurd more (by simp)
      by_cases early : ∃ x, x <+: w ∧ x.count '[' < x.count ']'
      · obtain ⟨x, ⟨rest, rfl⟩, less⟩ := early
        have shorter : x.length < n := by
          rw [← hn]
          simp only [List.concat_eq_append, List.length_append, List.length_singleton]
          omega
        obtain ⟨w, v, rfl, balanced⟩ := ih x.length shorter less rfl
        exact ⟨w, v ++ (rest ++ [c]), by simp, balanced⟩
      · have ahead : ∀ x, x <+: w → x.count ']' ≤ x.count '[' := by
          intro x hx
          exact Nat.le_of_not_lt fun less => early ⟨x, hx, less⟩
        have enough := ahead w (List.prefix_refl w)
        -- only the last character can have made the difference
        rw [List.concat_eq_append, List.count_append, List.count_append] at more
        have last : c = ']' := by
          by_contra other
          rw [List.count_eq_zero_of_not_mem (by simp [Ne.symm other] : ']' ∉ [c])] at more
          omega
        subst last
        have one : [']'].count ']' = 1 := rfl
        have zero : [']'].count '[' = 0 := rfl
        exact ⟨w, [], List.concat_eq_append, ahead, by omega⟩

/-- In text that balances every opening bracket is closed. -/
theorem partner (h : Balanced (u ++ '[' :: v)) : ∃ w rest, v = w ++ ']' :: rest ∧ Balanced w := by
  have ahead := h.ahead u (List.prefix_append _ _)
  have even := h.even
  simp only [List.count_append, List.count_cons_self,
    List.count_cons_of_ne (by decide : '[' ≠ ']')] at even
  exact exists_of_count_lt (by omega)

/-- A closing bracket behind text that balances closes too much. -/
theorem overclosed (h : Balanced w) (cs : List Char) : Overclosed (w ++ ']' :: cs) w.length := by
  have even := h.even
  exact ⟨w ++ [']'], ⟨cs, by simp⟩, by simp, by simp [even]⟩

/-- It is the first to do so. -/
theorem isLeast_overclosed (h : Balanced w) (cs : List Char) :
    IsLeast {i | Overclosed (w ++ ']' :: cs) i} w.length := by
  refine ⟨h.overclosed cs, ?_⟩
  rintro i ⟨u, front, size, more⟩
  by_contra early
  have inside : u <+: w := by
    refine List.prefix_of_prefix_length_le front (List.prefix_append _ _) ?_
    omega
  exact not_overclosed h.ahead i ⟨u, inside, size, more⟩

theorem not_unclosed (h : Balanced w) (i : Nat) : ¬ Unclosed w i := by
  rintro ⟨bracket, alone⟩
  obtain ⟨bound, at_i⟩ := List.getElem?_eq_some_iff.mp bracket
  have split : w = w.take i ++ '[' :: w.drop (i + 1) := by
    rw [← at_i, List.getElem_cons_drop, List.take_append_drop]
  rw [split] at h
  obtain ⟨x, rest, inside, balanced⟩ := h.partner
  refine alone _ ⟨w.take i, x, rest, ?_, balanced, ?_, rfl⟩
  · rw [← inside]
    exact split
  · rw [List.length_take, Nat.min_eq_left (Nat.le_of_lt bound)]

end Balanced

/-! ### The stack of open brackets -/

/-- The brackets of the text that are open at its end, innermost first. The text between one and the
next balances, and so does the text behind the last. -/
inductive Opened : List Char → List Nat → Prop
  | none {w} : Balanced w → Opened w []
  | more {u w opened} : Opened u opened → Balanced w → Opened (u ++ '[' :: w) (u.length :: opened)

namespace Opened

variable {before w : List Char} {opened : List Nat} {index : Nat}

theorem balanced (h : Opened before []) : Balanced before := by
  cases h with
  | none balanced => exact balanced

theorem ahead (h : Opened before opened) : ∀ x, x <+: before → x.count ']' ≤ x.count '[' := by
  induction h with
  | none balanced => exact balanced.ahead
  | @more u w opened _ balanced ih =>
      rintro x ⟨rest, split⟩
      rcases List.append_eq_append_iff.mp split with ⟨y, rfl, -⟩ | ⟨y, rfl, tail⟩
      · exact ih x (List.prefix_append x y)
      · have enough := ih u (List.prefix_refl u)
        rcases List.prefix_cons_iff.mp ⟨rest, tail.symm⟩ with rfl | ⟨z, rfl, hz⟩
        · simpa using enough
        · have inside := balanced.ahead z hz
          simp only [List.count_append, List.count_cons_self,
            List.count_cons_of_ne (by decide : '[' ≠ ']')]
          omega

/-- Text that balances leaves the stack as it is. -/
theorem append (h : Opened before opened) (hw : Balanced w) : Opened (before ++ w) opened := by
  cases h with
  | none balanced => exact .none (balanced.append hw)
  | @more u x opened outer balanced =>
      rw [List.append_assoc, List.cons_append]
      exact .more outer (balanced.append hw)

theorem opening (h : Opened before opened) : Opened (before ++ ['[']) (before.length :: opened) :=
  .more h .nil

theorem closing (h : Opened before (index :: opened)) : Opened (before ++ [']']) opened := by
  cases h with
  | @more u w _ outer balanced =>
      have whole : u ++ '[' :: w ++ [']'] = u ++ '[' :: (w ++ [']']) := by simp
      rw [whole]
      exact outer.append balanced.enclose

/-- The innermost open bracket is the last that is never closed. -/
theorem isGreatest_unclosed (h : Opened before (index :: opened)) :
    IsGreatest {i | Unclosed before i} index := by
  cases h with
  | @more u w _ outer balanced =>
      have bracket : (u ++ '[' :: w)[u.length]? = some '[' := by
        rw [List.getElem?_append_right (Nat.le_refl _), Nat.sub_self, List.getElem?_cons_zero]
      refine ⟨⟨bracket, ?_⟩, ?_⟩
      · rintro k ⟨u', w', v, split, inside, place, -⟩
        obtain ⟨rfl, same⟩ := List.append_inj split place
        have tail : w = w' ++ ']' :: v := (List.cons.inj same).2
        exact not_overclosed balanced.ahead _ (tail ▸ inside.overclosed v)
      · rintro i ⟨later, alone⟩
        by_contra behind
        have place : u.length < i := Nat.lt_of_not_le behind
        rw [List.getElem?_append_right (Nat.le_of_lt place)] at later
        obtain ⟨j, distance⟩ : ∃ j, i - u.length = j + 1 := ⟨i - u.length - 1, by omega⟩
        rw [distance, List.getElem?_cons_succ] at later
        -- it would be unclosed in `w`, too
        refine balanced.not_unclosed j ⟨later, ?_⟩
        rintro k ⟨u', w', v, split, inside, rfl, rfl⟩
        refine alone _ ⟨u ++ '[' :: u', w', v, ?_, inside, ?_, rfl⟩
        · rw [split]
          simp
        · simp only [List.length_append, List.length_cons]
          omega

end Opened

/-! ### The verdict of the reader -/

/-- What a verdict says of the brackets of a text. -/
def Verdict (cs : List Char) : Option Mismatch → Prop
  | none => Balanced cs
  | some (.unopened i) => IsLeast {i | Overclosed cs i} i
  | some (.unclosed j) => (∀ i, ¬ Overclosed cs i) ∧ IsGreatest {j | Unclosed cs j} j

namespace Program

theorem verdict_of_opened {before : List Char} {opened : List Nat} (h : Opened before opened)
    (cs : List Char) : Verdict (before ++ cs) (mismatchFrom? opened before.length cs) := by
  induction cs generalizing before opened with
  | nil =>
      rw [List.append_nil]
      cases opened with
      | nil => exact h.balanced
      | cons index opened => exact ⟨not_overclosed h.ahead, h.isGreatest_unclosed⟩
  | cons c cs ih =>
      have whole : before ++ c :: cs = before ++ [c] ++ cs := by simp
      have size : before.length + 1 = (before ++ [c]).length := by simp
      by_cases hopen : c = '['
      · subst hopen
        rw [mismatchFrom?_opening, whole, size]
        exact ih h.opening
      · by_cases hclose : c = ']'
        · subst hclose
          cases opened with
          | nil => exact h.balanced.isLeast_overclosed cs
          | cons index opened =>
              rw [mismatchFrom?_closing, whole, size]
              exact ih h.closing
        · rw [mismatchFrom?_plain hopen hclose, whole, size]
          exact ih (h.append (.plain hopen hclose))

theorem verdict_mismatch? (text : String) : Verdict text.toList (mismatch? text) :=
  verdict_of_opened (.none .nil) text.toList

/-- Nothing is reported exactly of text that balances. -/
theorem mismatchFrom?_eq_none_iff (cs : List Char) :
    mismatchFrom? [] 0 cs = none ↔ Balanced cs := by
  have verdict : Verdict cs (mismatchFrom? [] 0 cs) := verdict_of_opened (.none .nil) cs
  constructor
  · intro silent
    rw [silent] at verdict
    exact verdict
  · intro balanced
    cases h : mismatchFrom? [] 0 cs with
    | none => rfl
    | some m =>
        rw [h] at verdict
        cases m with
        | unopened i => exact absurd verdict.1 (not_overclosed balanced.ahead i)
        | unclosed j => exact absurd verdict.2.1 (balanced.not_unclosed j)

theorem mismatch?_eq_none_iff (text : String) : mismatch? text = none ↔ Balanced text.toList :=
  mismatchFrom?_eq_none_iff text.toList

end Program

instance (cs : List Char) : Decidable (Balanced cs) :=
  decidable_of_iff _ (Program.mismatchFrom?_eq_none_iff cs)

/-- Text that does not balance is refused, and the right bracket is named: the first that closes
more than was opened or, where there is none, the last that is opened and never closed. Offsets
count all characters, from one. -/
theorem unbalanced_text_names_bracket (text : String) (unbalanced : ¬ Balanced text.toList) :
    ((∃ i, Overclosed text.toList i) →
      ∃ i, IsLeast {i | Overclosed text.toList i} i ∧ Program.read text = .error (.unopened i) ∧
        (Mismatch.unopened i).message = s!"Mismatched ']' at offset {i + 1}: no matching '['.") ∧
    ((∀ i, ¬ Overclosed text.toList i) →
      ∃ j, IsGreatest {j | Unclosed text.toList j} j ∧ Program.read text = .error (.unclosed j) ∧
        (Mismatch.unclosed j).message = s!"Mismatched '[' at offset {j + 1}: missing ']'.") := by
  have verdict := Program.verdict_mismatch? text
  cases h : Program.mismatch? text with
  | none => exact absurd ((Program.mismatch?_eq_none_iff text).mp h) unbalanced
  | some m =>
      have refused : Program.read text = .error m := by rw [Program.read_eq, h]
      rw [h] at verdict
      cases m with
      | unopened i =>
          exact ⟨fun _ => ⟨i, verdict, refused, rfl⟩, fun closed => absurd verdict.1 (closed i)⟩
      | unclosed j =>
          refine ⟨?_, fun _ => ⟨j, verdict.2, refused, rfl⟩⟩
          rintro ⟨i, surplus⟩
          exact absurd surplus (verdict.1 i)

/-- A bracket too many behind a loop with a comment in it, and loops of which the outer one stays
open. -/
theorem stray_brackets_named :
    ((¬ Balanced "[é]][".toList ∧ ∃ i, Overclosed "[é]][".toList i) ∧
      ∃ i, IsLeast {i | Overclosed "[é]][".toList i} i ∧
        Program.read "[é]][" = .error (.unopened i) ∧
        (Mismatch.unopened i).message = s!"Mismatched ']' at offset {i + 1}: no matching '['.") ∧
    (¬ Balanced "+[[]-[é]".toList ∧ ∀ i, ¬ Overclosed "+[[]-[é]".toList i) ∧
      ∃ j, IsGreatest {j | Unclosed "+[[]-[é]".toList j} j ∧
        Program.read "+[[]-[é]" = .error (.unclosed j) ∧
        (Mismatch.unclosed j).message = s!"Mismatched '[' at offset {j + 1}: missing ']'." := by
  have surplus : Overclosed "[é]][".toList 3 := ⟨"[é]]".toList, by decide, by decide, by decide⟩
  have unbalanced : ¬ Balanced "[é]][".toList := by decide
  have unbalanced' : ¬ Balanced "+[[]-[é]".toList := by decide
  have closed : ∀ i, ¬ Overclosed "+[[]-[é]".toList i := by
    have verdict := Program.verdict_mismatch? "+[[]-[é]"
    have found : Program.mismatch? "+[[]-[é]" = some (.unclosed 1) := by cbv
    rw [found] at verdict
    exact verdict.1
  exact ⟨⟨⟨unbalanced, 3, surplus⟩, (unbalanced_text_names_bracket _ unbalanced).1 ⟨3, surplus⟩⟩,
    ⟨unbalanced', closed⟩, (unbalanced_text_names_bracket _ unbalanced').2 closed⟩

end TapeChain
