import TapeChain.Program.Reader
import TapeChain.Proofs.Sharing

/-! Program text and the chain it is read as. The one scan of the reader does what two passes do: one
looks for a bracket without a partner, the other cuts the text into tokens, which make a tree. `Reads`
says directly on the characters which chain a text spells: runs of steps merge, comments are skipped,
brackets enclose. What the reader makes of a text whose brackets balance is the chain that the text
spells. -/
namespace TapeChain

/-! ### Tokens and brackets -/

namespace Token

/-- The command of one character on its own. -/
def ofChar? : Char → Option Token
  | '>' => some (.move 1)
  | '<' => some (.move (-1))
  | '+' => some (.add 1)
  | '-' => some (.add (-1))
  | '.' => some .output
  | ',' => some .input
  | '[' => some .opening
  | ']' => some .closing
  | _ => none

/-- What two neighbouring tokens make together. -/
def merge? : Token → Token → Option Token
  | .move a, .move b => some (.move (a + b))
  | .add a, .add b => some (.add (a + b))
  | _, _ => none

/-- Reads on with a token in hand that may still grow. -/
def scanFrom (held : Option Token) : List Char → List Token
  | [] => held.toList
  | c :: cs =>
    match ofChar? c, held with
    | none, none => scanFrom none cs
    | none, some h => h :: scanFrom none cs
    | some t, none => scanFrom (some t) cs
    | some t, some h =>
      match h.merge? t with
      | some m => scanFrom (some m) cs
      | none => h :: scanFrom (some t) cs

def scan (text : String) : List Token := scanFrom none text.toList

end Token

namespace Program

/-- Follows the brackets from `index` on; `opened` holds those still open, innermost first. -/
def mismatchFrom? (opened : List Nat) (index : Nat) : List Char → Option Mismatch
  | [] =>
    match opened with
    | [] => none
    | last :: _ => some (.unclosed last)
  | c :: cs =>
    if c = '[' then mismatchFrom? (index :: opened) (index + 1) cs
    else if c = ']' then
      match opened with
      | [] => some (.unopened index)
      | _ :: outer => mismatchFrom? outer (index + 1) cs
    else mismatchFrom? opened (index + 1) cs

def mismatch? (text : String) : Option Mismatch := mismatchFrom? [] 0 text.toList

end Program

/-! ### Runs of steps -/

namespace Axis

/-- What a run amounts to. -/
def net (a : Axis) (run : List Char) : Int := run.count a.up - run.count a.down

def token : Axis → Int → Token
  | .pointer, n => .move n
  | .data, n => .add n

def node : Axis → Operand → Chain → Chain
  | .pointer, o, next => .move o next
  | .data, o, next => .add o next

theorem has_iff {a : Axis} {c : Char} : a.has c = true ↔ c = a.up ∨ c = a.down := by
  simp only [has, Bool.or_eq_true, decide_eq_true_eq]

theorem ofChar?_has {a : Axis} {c : Char} (h : a.has c) : ofChar? c = some a := by
  rcases has_iff.mp h with rfl | rfl <;> cases a <;> rfl

theorem has_of_ofChar? {a : Axis} {c : Char} (h : ofChar? c = some a) : a.has c := by
  unfold ofChar? at h
  split at h
  · next pointer => cases h; exact pointer
  · split at h
    · next data => cases h; exact data
    · cases h

theorem ofChar?_eq {a : Axis} {c : Char} (h : a.has c) :
    Token.ofChar? c = some (a.token (a.step c)) := by
  rcases has_iff.mp h with rfl | rfl <;> cases a <;> rfl

theorem ne_bracket {a : Axis} {c : Char} (h : a.has c) : c ≠ '[' ∧ c ≠ ']' := by
  rcases has_iff.mp h with rfl | rfl <;> cases a <;> decide

theorem net_cons {a : Axis} {c : Char} (h : a.has c) (run : List Char) :
    a.net (c :: run) = a.step c + a.net run := by
  have apart : a.up ≠ a.down := by cases a <;> decide
  rcases has_iff.mp h with rfl | rfl
  · simp only [net, step, if_true, List.count_cons_self, List.count_cons_of_ne apart]
    omega
  · simp only [net, step, if_neg apart.symm, List.count_cons_self, List.count_cons_of_ne apart.symm]
    omega

theorem net_nil (a : Axis) : a.net [] = 0 := by cases a <;> rfl

theorem net_bounds (a : Axis) (run : List Char) :
    -(run.length : Int) ≤ a.net run ∧ a.net run ≤ run.length := by
  have high := List.count_le_length (a := a.up) (l := run)
  have low := List.count_le_length (a := a.down) (l := run)
  simp only [net]
  omega

theorem merge?_token (a : Axis) (n k : Int) :
    (a.token n).merge? (a.token k) = some (a.token (n + k)) := by
  cases a <;> rfl

/-- Only a step of its own axis joins a run. -/
theorem merge?_eq_none {a : Axis} {c : Char} {t : Token} (other : ¬ a.has c)
    (ht : Token.ofChar? c = some t) (n : Int) : (a.token n).merge? t = none := by
  unfold Token.ofChar? at ht
  split at ht <;> cases ht <;> cases a <;> simp_all [has, up, down, token, Token.merge?]

end Axis

/-- A character is a comment, a step on one of the axes, or one of four single commands. -/
theorem Token.ofChar?_cases (c : Char) :
    ofChar? c = none ∨ (∃ a : Axis, a.has c = true) ∨ c = '.' ∨ c = ',' ∨ c = '[' ∨ c = ']' := by
  unfold ofChar?
  split
  · exact .inr (.inl ⟨.pointer, rfl⟩)
  · exact .inr (.inl ⟨.pointer, rfl⟩)
  · exact .inr (.inl ⟨.data, rfl⟩)
  · exact .inr (.inl ⟨.data, rfl⟩)
  all_goals simp

theorem Token.ne_bracket_of_comment {c : Char} (h : ofChar? c = none) : c ≠ '[' ∧ c ≠ ']' := by
  constructor <;> rintro rfl <;> cases h

/-- The text after a run does not go on with it. -/
def Axis.Ends (a : Axis) (cs : List Char) : Prop := ∀ c ∈ cs.head?, ¬ a.has c

/-- Induction along text, a whole run at a time. -/
theorem text_induction {motive : List Char → Prop} (nil : motive [])
    (comment : ∀ c cs, Token.ofChar? c = none → motive cs → motive (c :: cs))
    (run : ∀ (a : Axis) run cs, run ≠ [] → (∀ c ∈ run, a.has c) → a.Ends cs → motive cs →
      motive (run ++ cs))
    (output : ∀ cs, motive cs → motive ('.' :: cs)) (input : ∀ cs, motive cs → motive (',' :: cs))
    (opening : ∀ cs, motive cs → motive ('[' :: cs))
    (closing : ∀ cs, motive cs → motive (']' :: cs)) (cs : List Char) : motive cs := by
  induction hn : cs.length using Nat.strongRecOn generalizing cs with
  | ind n ih =>
      cases cs with
      | nil => exact nil
      | cons c cs =>
          have shorter : motive cs := ih cs.length (hn ▸ Nat.lt_succ_self _) cs rfl
          rcases Token.ofChar?_cases c with h | ⟨a, h⟩ | rfl | rfl | rfl | rfl
          · exact comment c cs h shorter
          · have whole : c :: cs = (c :: cs).takeWhile a.has ++ (c :: cs).dropWhile a.has :=
              List.takeWhile_append_dropWhile.symm
            have first : (c :: cs).takeWhile a.has = c :: cs.takeWhile a.has := by
              rw [List.takeWhile_cons, if_pos h]
            have rest : ((c :: cs).dropWhile a.has).length < n := by
              rw [List.dropWhile_cons, if_pos h, ← hn]
              exact Nat.lt_succ_of_le (List.dropWhile_suffix a.has).length_le
            rw [whole]
            refine run a _ _ (by rw [first]; exact List.cons_ne_nil _ _) ?_ ?_ (ih _ rest _ rfl)
            · exact List.all_eq_true.mp List.all_takeWhile
            · intro x hx
              have stop := List.head?_dropWhile_not a.has (c :: cs)
              rw [Option.mem_def.mp hx] at stop
              simpa using stop
          · exact output cs shorter
          · exact input cs shorter
          · exact opening cs shorter
          · exact closing cs shorter

namespace Token

/-- A token in hand is put down where the text does not go on with it. -/
theorem scanFrom_some {h : Token} {cs : List Char}
    (apart : ∀ c ∈ cs.head?, ∀ t, ofChar? c = some t → h.merge? t = none) :
    scanFrom (some h) cs = h :: scanFrom none cs := by
  cases cs with
  | nil => rfl
  | cons c cs =>
      cases hc : ofChar? c with
      | none => simp only [scanFrom, hc]
      | some t => simp only [scanFrom, hc, apart c rfl t hc]

theorem scanFrom_comment {c : Char} (h : ofChar? c = none) (cs : List Char) :
    scanFrom none (c :: cs) = scanFrom none cs := by
  simp only [scanFrom, h]

theorem scanFrom_single {c : Char} {t : Token} (h : ofChar? c = some t)
    (alone : ∀ t', t.merge? t' = none) (cs : List Char) :
    scanFrom none (c :: cs) = t :: scanFrom none cs := by
  simp only [scanFrom, h]
  exact scanFrom_some fun _ _ t' _ => alone t'

theorem scanFrom_held_run {a : Axis} {run cs : List Char} (steps : ∀ c ∈ run, a.has c)
    (stop : a.Ends cs) (n : Int) :
    scanFrom (some (a.token n)) (run ++ cs) = a.token (n + a.net run) :: scanFrom none cs := by
  induction run generalizing n with
  | nil =>
      rw [a.net_nil, Int.add_zero]
      exact scanFrom_some fun c hc t ht => Axis.merge?_eq_none (stop c hc) ht n
  | cons c run ih =>
      have hc := steps c List.mem_cons_self
      simp only [List.cons_append, scanFrom, Axis.ofChar?_eq hc, a.merge?_token]
      rw [ih (fun x hx => steps x (List.mem_cons_of_mem _ hx)), Axis.net_cons hc, Int.add_assoc]

theorem scanFrom_run {a : Axis} {run cs : List Char} (filled : run ≠ []) (steps : ∀ c ∈ run, a.has c)
    (stop : a.Ends cs) : scanFrom none (run ++ cs) = a.token (a.net run) :: scanFrom none cs := by
  cases run with
  | nil => exact absurd rfl filled
  | cons c run =>
      have hc := steps c List.mem_cons_self
      simp only [List.cons_append, scanFrom, Axis.ofChar?_eq hc]
      rw [scanFrom_held_run (fun x hx => steps x (List.mem_cons_of_mem _ hx)) stop,
        Axis.net_cons hc]

end Token

/-! ### Which chain a text spells -/

/-- `Reads cs c rest`: the text `cs` spells the chain `c` up to `rest`, which is the end of the text
or starts at the bracket that closes an outer loop. -/
inductive Reads : List Char → Chain → List Char → Prop
  | finish : Reads [] .stop []
  | closing (rest : List Char) : Reads (']' :: rest) .stop (']' :: rest)
  | comment {c cs chain rest} : Token.ofChar? c = none → Reads cs chain rest →
      Reads (c :: cs) chain rest
  | run {a : Axis} {run cs chain rest} : run ≠ [] → (∀ c ∈ run, a.has c) → a.Ends cs →
      Reads cs chain rest → Reads (run ++ cs) (a.node (.encode (a.net run)) chain) rest
  | output {cs chain rest} : Reads cs chain rest → Reads ('.' :: cs) (.output chain) rest
  | input {cs chain rest} : Reads cs chain rest → Reads (',' :: cs) (.input chain) rest
  | loop {cs body after next rest} : Reads cs body (']' :: after) → Reads after next rest →
      Reads ('[' :: cs) (.loop body next) rest

/-- The text spells one chain after another, each closed by a bracket but the last. -/
inductive ReadsLevels : List Char → Chain → List Chain → Prop
  | last {cs c} : Reads cs c [] → ReadsLevels cs c []
  | more {cs c after next outer} : Reads cs c (']' :: after) → ReadsLevels after next outer →
      ReadsLevels cs c (next :: outer)

theorem ReadsLevels.map {cs cs' : List Char} {c c' : Chain} {outer : List Chain}
    (h : ReadsLevels cs c outer) (change : ∀ rest, Reads cs c rest → Reads cs' c' rest) :
    ReadsLevels cs' c' outer := by
  cases h with
  | last first => exact .last (change _ first)
  | more first rest => exact .more (change _ first) rest

namespace Program

/-- The tree and the waiting sequences of a text. -/
def tailOf (cs : List Char) : Tail := (Token.scanFrom none cs).foldr Tail.cons ⟨.done, []⟩

/-- A tail whose waiting sequences are as many as the open brackets, and that the text spells. -/
structure Spelled (cs : List Char) (opened : List Nat) (tail : Tail) : Prop where
  levels : ReadsLevels cs tail.here.chain (tail.outer.map chain)
  count : tail.outer.length = opened.length

theorem mismatchFrom?_plain {opened : List Nat} {c : Char} (hopen : c ≠ '[') (hclose : c ≠ ']')
    (index : Nat) (cs : List Char) :
    mismatchFrom? opened index (c :: cs) = mismatchFrom? opened (index + 1) cs := by
  cases opened <;> simp only [mismatchFrom?, if_neg hopen, if_neg hclose]

theorem mismatchFrom?_opening (opened : List Nat) (index : Nat) (cs : List Char) :
    mismatchFrom? opened index ('[' :: cs) = mismatchFrom? (index :: opened) (index + 1) cs := by
  cases opened <;> rfl

theorem mismatchFrom?_closing (first : Nat) (opened : List Nat) (index : Nat) (cs : List Char) :
    mismatchFrom? (first :: opened) index (']' :: cs) = mismatchFrom? opened (index + 1) cs := rfl

theorem mismatchFrom?_run {a : Axis} {run : List Char} (steps : ∀ c ∈ run, a.has c)
    (opened : List Nat) (index : Nat) (cs : List Char) :
    mismatchFrom? opened index (run ++ cs) = mismatchFrom? opened (index + run.length) cs := by
  induction run generalizing index with
  | nil => rfl
  | cons c run ih =>
      obtain ⟨hopen, hclose⟩ := Axis.ne_bracket (steps c List.mem_cons_self)
      rw [List.cons_append, mismatchFrom?_plain hopen hclose,
        ih (fun x hx => steps x (List.mem_cons_of_mem _ hx)), List.length_cons]
      congr 1
      omega

def brackets (cs : List Char) : List Char := cs.filter fun c => c = '[' || c = ']'

/-- Only the brackets count in their balance, and of those still open only how many they are. -/
theorem isNone_mismatchFrom? {opened opened' : List Nat} (size : opened.length = opened'.length)
    (index index' : Nat) (cs : List Char) :
    (mismatchFrom? opened index cs).isNone =
      (mismatchFrom? opened' index' (brackets cs)).isNone := by
  induction cs generalizing opened opened' index index' with
  | nil =>
      cases opened with
      | nil => rw [List.eq_nil_of_length_eq_zero size.symm]; rfl
      | cons first opened =>
          obtain ⟨first', opened', rfl⟩ := List.exists_cons_of_length_eq_add_one size.symm
          rfl
  | cons c cs ih =>
      by_cases hopen : c = '['
      · subst hopen
        rw [brackets, List.filter_cons_of_pos rfl, mismatchFrom?_opening, mismatchFrom?_opening]
        exact ih (by simp only [List.length_cons, size]) _ _
      · by_cases hclose : c = ']'
        · subst hclose
          rw [brackets, List.filter_cons_of_pos rfl]
          cases opened with
          | nil => rw [List.eq_nil_of_length_eq_zero size.symm]; rfl
          | cons first opened =>
              obtain ⟨first', opened', rfl⟩ := List.exists_cons_of_length_eq_add_one size.symm
              rw [mismatchFrom?_closing, mismatchFrom?_closing]
              exact ih (Nat.succ.inj size) _ _
        · rw [mismatchFrom?_plain hopen hclose, brackets,
            List.filter_cons_of_neg (by simp [hopen, hclose])]
          exact ih size _ _

/-- Texts with the same brackets are both programs, or both none. -/
theorem isNone_mismatch?_of_brackets {text text' : String}
    (same : brackets text'.toList = brackets text.toList) :
    (mismatch? text').isNone = (mismatch? text).isNone := by
  rw [mismatch?, mismatch?, isNone_mismatchFrom? rfl 0 0 text'.toList,
    isNone_mismatchFrom? rfl 0 0 text.toList, same]

/-- Where no bracket is without a partner, the tail is spelled by the text. -/
theorem spelled_of_balanced {opened : List Nat} {index : Nat} {cs : List Char}
    (balanced : mismatchFrom? opened index cs = none) : Spelled cs opened (tailOf cs) := by
  induction cs using text_induction generalizing opened index with
  | nil =>
      cases opened with
      | nil => exact ⟨.last .finish, rfl⟩
      | cons first opened => cases balanced
  | comment c cs h ih =>
      obtain ⟨hopen, hclose⟩ := Token.ne_bracket_of_comment h
      rw [mismatchFrom?_plain hopen hclose] at balanced
      obtain ⟨levels, count⟩ := ih balanced
      rw [tailOf, Token.scanFrom_comment h]
      exact ⟨levels.map fun _ => .comment h, count⟩
  | run a run cs filled steps stop ih =>
      rw [mismatchFrom?_run steps] at balanced
      obtain ⟨levels, count⟩ := ih balanced
      rw [tailOf, Token.scanFrom_run filled steps stop]
      refine ⟨?_, ?_⟩
      · cases a <;> exact levels.map fun _ => .run filled steps stop
      · cases a <;> exact count
  | output cs ih =>
      rw [mismatchFrom?_plain (by decide) (by decide)] at balanced
      obtain ⟨levels, count⟩ := ih balanced
      rw [tailOf, Token.scanFrom_single rfl (fun _ => rfl)]
      exact ⟨levels.map fun _ => .output, count⟩
  | input cs ih =>
      rw [mismatchFrom?_plain (by decide) (by decide)] at balanced
      obtain ⟨levels, count⟩ := ih balanced
      rw [tailOf, Token.scanFrom_single rfl (fun _ => rfl)]
      exact ⟨levels.map fun _ => .input, count⟩
  | opening cs ih =>
      rw [mismatchFrom?_opening] at balanced
      obtain ⟨levels, count⟩ := ih balanced
      rw [tailOf, Token.scanFrom_single rfl (fun _ => rfl), List.foldr_cons]
      change Spelled _ _ (Tail.cons .opening (tailOf cs))
      generalize tailOf cs = tail at levels count
      obtain ⟨here, outer⟩ := tail
      -- The bracket is open in what follows, so some sequence waits for it to close.
      cases outer with
      | nil => cases count
      | cons next outer =>
          cases levels with
          | more body rest => exact ⟨rest.map fun _ => .loop body, Nat.succ.inj count⟩
  | closing cs ih =>
      cases opened with
      | nil => cases balanced
      | cons first opened =>
          rw [mismatchFrom?_closing] at balanced
          obtain ⟨levels, count⟩ := ih balanced
          rw [tailOf, Token.scanFrom_single rfl (fun _ => rfl)]
          exact ⟨.more (.closing cs) levels, congrArg Nat.succ count⟩

/-! ### One scan -/

/-- What the scan comes to if the rest of the text makes this tail. -/
def fill (here : List Item) : List (Nat × List Item) → Tail → Program
  | [], tail => prepend here tail.here
  | (_, before) :: outer, ⟨body, []⟩ => fill (.loop (prepend here body) :: before) outer ⟨.done, []⟩
  | (_, before) :: outer, ⟨body, next :: more⟩ =>
    fill (.loop (prepend here body) :: before) outer ⟨next, more⟩

theorem fill_cons (item : Item) (here : List Item) (outer : List (Nat × List Item)) (tail : Tail) :
    fill (item :: here) outer tail =
      fill here outer { tail with here := item.before tail.here } := by
  obtain ⟨p, more⟩ := tail
  cases outer with
  | nil => rfl
  | cons level outer => cases more <;> rfl

theorem fill_steps (a : Axis) (total : Int) (here : List Item) (outer : List (Nat × List Item))
    (tail : Tail) :
    fill (.steps a total :: here) outer tail = fill here outer (tail.cons (a.token total)) := by
  rw [fill_cons]
  cases a <;> rfl

theorem fill_opening (index : Nat) (here : List Item) (outer : List (Nat × List Item)) (tail : Tail) :
    fill [] ((index, here) :: outer) tail = fill here outer (tail.cons .opening) := by
  obtain ⟨body, more⟩ := tail
  cases more with
  | nil => exact fill_cons (.loop body) here outer ⟨.done, []⟩
  | cons next more => exact fill_cons (.loop body) here outer ⟨next, more⟩

section
variable {here : List Item} {outer : List (Nat × List Item)}

/-- A run of steps is read as one instruction, wherever its sum stands before. -/
theorem readFrom_run {a : Axis} {run cs : List Char} (steps : ∀ c ∈ run, a.has c) (total : Int)
    (index : Nat) : readFrom ⟨some (a, total), here, outer⟩ index (run ++ cs) =
      readFrom ⟨some (a, total + a.net run), here, outer⟩ (index + run.length) cs := by
  induction run generalizing total index with
  | nil => rw [a.net_nil, Int.add_zero]; rfl
  | cons c run ih =>
      have hc := steps c List.mem_cons_self
      rw [List.cons_append, readFrom, Scan.next, Axis.ofChar?_has hc]
      simp only [Scan.grow, if_true]
      rw [ih (fun x hx => steps x (List.mem_cons_of_mem _ hx)), Axis.net_cons hc, Int.add_assoc,
        List.length_cons, Nat.add_assoc, Nat.add_comm 1]

theorem readFrom_ends {a : Axis} {cs : List Char} (stop : a.Ends cs) (total : Int) (index : Nat) :
    readFrom ⟨some (a, total), here, outer⟩ index cs =
      readFrom ⟨none, .steps a total :: here, outer⟩ index cs := by
  cases cs with
  | nil => rfl
  | cons c cs =>
      have same : Scan.next index c ⟨some (a, total), here, outer⟩ =
          Scan.next index c ⟨none, .steps a total :: here, outer⟩ := by
        unfold Scan.next
        cases axis : Axis.ofChar? c with
        | none => rfl
        | some b =>
            have apart : a ≠ b := by
              rintro rfl
              exact stop c rfl (Axis.has_of_ofChar? axis)
            simp only [Scan.grow, if_neg apart]
      rw [readFrom, readFrom, same]

end

theorem Scan.next_comment {c : Char} (h : Token.ofChar? c = none) (index : Nat) (s : Scan) :
    s.next index c = .ok s.settle := by
  unfold Token.ofChar? at h
  split at h <;> simp_all [Scan.next, Scan.enter, Axis.ofChar?, Axis.has, Axis.up, Axis.down]

/-- The one scan finds the bracket without a partner, or makes the tree of the tokens. -/
theorem readFrom_eq (here : List Item) (outer : List (Nat × List Item)) (index : Nat)
    (cs : List Char) : readFrom ⟨none, here, outer⟩ index cs =
      match mismatchFrom? (outer.map Prod.fst) index cs with
      | some m => .error m
      | none => .ok (fill here outer (tailOf cs)) := by
  induction cs using text_induction generalizing here outer index with
  | nil => cases outer <;> rfl
  | comment c cs h ih =>
      obtain ⟨hopen, hclose⟩ := Token.ne_bracket_of_comment h
      rw [readFrom, Scan.next_comment h, mismatchFrom?_plain hopen hclose, tailOf,
        Token.scanFrom_comment h]
      exact ih here outer (index + 1)
  | run a run cs filled steps stop ih =>
      obtain ⟨c, run, rfl⟩ := List.exists_cons_of_ne_nil filled
      have hc := steps c List.mem_cons_self
      have later : ∀ x ∈ run, a.has x := fun x mem => steps x (List.mem_cons_of_mem _ mem)
      have first : Scan.next index c ⟨none, here, outer⟩ = .ok ⟨some (a, a.step c), here, outer⟩ := by
        rw [Scan.next, Axis.ofChar?_has hc]
        rfl
      have whole : fill here outer (tailOf (c :: run ++ cs)) =
          fill (.steps a (a.net (c :: run)) :: here) outer (tailOf cs) := by
        rw [tailOf, Token.scanFrom_run filled steps stop, fill_steps]
        rfl
      rw [mismatchFrom?_run steps, whole, List.cons_append, readFrom, first]
      dsimp only
      rw [readFrom_run later, readFrom_ends stop, ih, ← Axis.net_cons hc, List.length_cons,
        Nat.add_assoc, Nat.add_comm 1]
  | output cs ih =>
      rw [mismatchFrom?_plain (by decide) (by decide), tailOf, Token.scanFrom_single rfl fun _ => rfl]
      exact (ih (.output :: here) outer (index + 1)).trans (by rw [fill_cons]; rfl)
  | input cs ih =>
      rw [mismatchFrom?_plain (by decide) (by decide), tailOf, Token.scanFrom_single rfl fun _ => rfl]
      exact (ih (.input :: here) outer (index + 1)).trans (by rw [fill_cons]; rfl)
  | opening cs ih =>
      rw [mismatchFrom?_opening, tailOf, Token.scanFrom_single rfl fun _ => rfl]
      exact (ih [] ((index, here) :: outer) (index + 1)).trans (by rw [fill_opening]; rfl)
  | closing cs ih =>
      cases outer with
      | nil => rfl
      | cons level outer =>
          rw [List.map_cons, mismatchFrom?_closing, tailOf, Token.scanFrom_single rfl fun _ => rfl]
          exact ih (.loop (prepend here .done) :: level.2) outer (index + 1)

theorem read_eq (text : String) : read text =
    match mismatch? text with
    | some m => .error m
    | none => .ok (ofTokens (Token.scan text)) := readFrom_eq [] [] 0 text.toList

/-- The reader makes of a text the chain that the text spells. -/
theorem reads_of_read {text : String} {p : Program} (h : read text = .ok p) :
    Reads text.toList p.chain [] := by
  rw [read_eq] at h
  split at h
  · cases h
  · next balanced =>
      obtain ⟨levels, count⟩ := spelled_of_balanced balanced
      cases h
      change ReadsLevels text.toList (ofTokens (Token.scan text)).chain _ at levels
      generalize (tailOf text.toList).outer = outer at levels count
      cases outer with
      | nil =>
          cases levels with
          | last whole => exact whole
      | cons next outer => cases count

end Program

end TapeChain
