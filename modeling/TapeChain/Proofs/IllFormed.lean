import TapeChain.Proofs.Loading
import TapeChain.Proofs.Positions

/-! Ill-formed terms. A term can be wrong in itself: its name is unknown, it has too many or too few
arguments, an argument is of the wrong kind, or it is a number that does not fit. What is wrong can be
seen from the term and the names of its arguments; a term whose arguments are all built fails exactly
if it is ill-formed, and says what was found first. Numbers with more digits than are ever read stand
apart: each of them fails, one that would fit too, and none says what an ill-formed term says. -/
namespace TapeChain

/-- The kind of what a symbol makes. -/
def Symbol.kind : Symbol → Kind
  | .digit _ => .hex
  | .operand => .int
  | _ => .op

namespace Term

def name? : Term → Option String
  | .leaf name => some name
  | .node name _ => some name
  | .literal _ => none

/-- The kind of what a term describes, as far as its name tells. -/
def kind? : Term → Option Kind
  | .leaf name => (Symbol.ofName? name).map Symbol.kind
  | .node name _ => (Symbol.ofName? name).map Symbol.kind
  | .literal _ => some .int

/-- The term is wrong in itself, whatever is wrong with its arguments. -/
inductive IllFormed : Term → Prop
  | unknown {t : Term} {name : String} : t.name? = some name → Symbol.ofName? name = none →
      IllFormed t
  | count {t : Term} {name : String} {s : Symbol} : t.name? = some name →
      Symbol.ofName? name = some s → t.args.length ≠ s.params.length → IllFormed t
  | kind {t arg : Term} {name : String} {s : Symbol} {i : Nat} {kind other : Kind} :
      t.name? = some name → Symbol.ofName? name = some s → s.params[i]? = some kind →
      t.args[i]? = some arg → arg.kind? = some other → other ≠ kind → IllFormed t
  | range {n : Numeral} : ¬ (-2147483648 ≤ n.value ∧ n.value ≤ 2147483647) →
      IllFormed (.literal (String.ofList n.chars))

/-- What is said about an ill-formed term whose arguments are well-formed. The number of arguments
matters only if the name is known, their kinds only if the number is right, and the kind of one only
if those before it are right. -/
inductive Reports : Term → ArtifactFault → Prop
  | unknown {t : Term} {name : String} : t.name? = some name → Symbol.ofName? name = none →
      Reports t (.symbol (.unknown name))
  | count {t : Term} {name : String} {s : Symbol} : t.name? = some name →
      Symbol.ofName? name = some s → t.args.length ≠ s.params.length →
      Reports t (.symbol (.arity name s.params.length t.args.length))
  | kind {t arg : Term} {name : String} {s : Symbol} {i : Nat} {kind : Kind} {v : Value} :
      t.name? = some name → Symbol.ofName? name = some s → t.args.length = s.params.length →
      s.params[i]? = some kind → t.args[i]? = some arg →
      (∀ j < i, t.args[j]?.bind kind? = s.params[j]?) → arg.kind? ≠ some kind →
      v.Words arg.words → Reports t (.symbol (.argument (i + 1) name kind v.shown))
  | range {n : Numeral} : ¬ (-2147483648 ≤ n.value ∧ n.value ≤ 2147483647) →
      Reports (.literal (String.ofList n.chars)) (.operandRange n.value)

/-- A number with more digits than are ever read, whatever its value. -/
def Overlong (t : Term) (n : Numeral) : Prop :=
  t = .literal (String.ofList n.chars) ∧ 4300 < n.digits.length

/-! ### Building apart from depth -/

/-- The term is built to a value. -/
def Gives (t : Term) (v : Value) : Prop := ∀ depth, t.build depth = .ok v

/-- The arguments are built, but not the term. -/
def Fails (t : Term) (fault : ArtifactFault) : Prop :=
  (∃ vs, List.Forall₂ Gives t.args vs) ∧ ∀ depth, t.build depth = .error ⟨depth, fault⟩

theorem Gives.unique {t : Term} {v v' : Value} (h : t.Gives v) (h' : t.Gives v') : v = v' :=
  Except.ok.inj ((h 0).symm.trans (h' 0))

theorem Fails.unique {t : Term} {f f' : ArtifactFault} (h : t.Fails f) (h' : t.Fails f') : f = f' :=
  congrArg DeepFault.fault (Except.error.inj ((h.2 0).symm.trans (h'.2 0)))

theorem Fails.not_gives {t : Term} {f : ArtifactFault} {v : Value} (h : t.Fails f) : ¬ t.Gives v := by
  intro h'
  have both := (h.2 0).symm.trans (h' 0)
  cases both

end Term

mutual

/-- What a term describes does not depend on where it stands. -/
theorem Term.gives_of_build : (t : Term) → ∀ {depth : Nat} {v : Value}, t.build depth = .ok v →
    t.Gives v
  | .leaf name, depth, v, h => by
      intro depth'
      rw [Term.build, atDepth, mapError_eq_ok_iff] at h ⊢
      exact h
  | .literal text, depth, v, h => by
      intro depth'
      rw [Term.build, atDepth, mapError_eq_ok_iff] at h ⊢
      exact h
  | .node name args, depth, v, h => by
      intro depth'
      rw [Term.build] at h
      split at h
      next => cases h
      next values inner =>
        rw [atDepth, mapError_eq_ok_iff] at h
        rw [Term.build, args.gives_of_build inner]
        dsimp only
        rw [atDepth, mapError_eq_ok_iff]
        exact h

theorem Args.gives_of_build : (args : Args) → ∀ {depth depth' : Nat} {vs : List Value},
    args.build depth = .ok vs → args.build depth' = .ok vs
  | .nil, _, _, _, h => h
  | .cons t rest, depth, depth', vs, h => by
      rw [Args.build] at h
      split at h
      next value values here later =>
        cases h
        rw [Args.build, t.gives_of_build here, rest.gives_of_build later]
      all_goals cases h

end

theorem Args.build_eq_ok_iff (args : Args) {depth : Nat} {vs : List Value} :
    args.build depth = .ok vs ↔ List.Forall₂ Term.Gives args.toList vs := by
  match args with
  | .nil =>
      constructor
      · intro h
        cases h
        exact .nil
      · intro h
        cases h
        rfl
  | .cons t rest =>
      rw [Args.build]
      constructor
      · intro h
        split at h
        next value values here later =>
          cases h
          exact .cons (t.gives_of_build here) (rest.build_eq_ok_iff.mp later)
        all_goals cases h
      · intro h
        cases h with
        | cons first others => rw [first depth, rest.build_eq_ok_iff.mpr others]

namespace Term

/-- A term with a name joins what its arguments are built to. -/
theorem build_named {t : Term} {name : String} {vs : List Value} (named : t.name? = some name)
    (given : List.Forall₂ Gives t.args vs) (depth : Nat) :
    t.build depth = atDepth depth (joinSymbol name vs) := by
  cases t with
  | leaf name' =>
      cases named
      cases given
      rfl
  | literal text => cases named
  | node name' args =>
      cases named
      rw [build, args.build_eq_ok_iff.mpr given]

theorem args_give {t : Term} {v : Value} (h : t.Gives v) : ∃ vs, List.Forall₂ Gives t.args vs := by
  cases t with
  | leaf name => exact ⟨[], .nil⟩
  | literal text => exact ⟨[], .nil⟩
  | node name args =>
      have built := h 0
      rw [build] at built
      split at built
      next => cases built
      next values inner => exact ⟨values, args.build_eq_ok_iff.mp inner⟩

theorem join_of_gives {t : Term} {name : String} {v : Value} (named : t.name? = some name)
    (h : t.Gives v) : ∃ vs, List.Forall₂ Gives t.args vs ∧ joinSymbol name vs = .ok v := by
  obtain ⟨vs, given⟩ := args_give h
  have built := h 0
  rw [build_named named given, atDepth, mapError_eq_ok_iff] at built
  exact ⟨vs, given, built⟩

end Term

/-! ### Kinds -/

namespace Symbol

theorem ofName?_eq_some_iff {name : String} {s : Symbol} : ofName? name = some s ↔ s.name = name := by
  constructor
  · intro h
    have named := List.find?_some h
    exact of_decide_eq_true named
  · rintro rfl
    exact s.ofName?_name

theorem kindName_of_join {s : Symbol} {vs : List Value} {v : Value} (h : s.join vs = .ok v) :
    v.kindName = s.kind.name := by
  cases s with
  | operand =>
      obtain ⟨o, rfl, rfl⟩ := join_operand h
      rfl
  | digit d =>
      rcases vs with _ | ⟨_, _⟩
      all_goals cases h
      rfl
  | stop =>
      rcases vs with _ | ⟨_, _⟩
      all_goals cases h
      rfl
  | loop =>
      rcases vs with _ | ⟨_ | _ | _ | _, _ | ⟨_ | _ | _ | _, _ | ⟨_, _⟩⟩⟩
      all_goals cases h
      rfl
  | move =>
      rcases vs with _ | ⟨_ | _ | _ | _, _ | ⟨_ | _ | _ | _, _ | ⟨_, _⟩⟩⟩
      all_goals cases h
      rfl
  | add =>
      rcases vs with _ | ⟨_ | _ | _ | _, _ | ⟨_ | _ | _ | _, _ | ⟨_, _⟩⟩⟩
      all_goals cases h
      rfl
  | output =>
      rcases vs with _ | ⟨_ | _ | _ | _, _ | ⟨_, _⟩⟩
      all_goals cases h
      rfl
  | input =>
      rcases vs with _ | ⟨_ | _ | _ | _, _ | ⟨_, _⟩⟩
      all_goals cases h
      rfl

section
variable {s : Symbol} {position : Nat} {kinds : List Kind} {vs : List Value}

/-- The value at a place is of the kind that is wanted there. -/
def FitsAt (kinds : List Kind) (vs : List Value) (i : Nat) : Prop :=
  vs[i]?.map Value.kindName = kinds[i]?.map Kind.name

theorem fitsAt_of_misfit? (count : vs.length = kinds.length)
    (h : s.misfit? position kinds vs = none) (i : Nat) : FitsAt kinds vs i := by
  induction kinds generalizing position vs i with
  | nil =>
      rw [List.length_eq_zero_iff.mp count]
      rfl
  | cons kind kinds ih =>
      cases vs with
      | nil => cases count
      | cons v vs =>
          rw [misfit?] at h
          split at h
          next named =>
            cases i with
            | zero => exact congrArg some named
            | succ i => exact ih (Nat.succ.inj count) h i
          next => cases h

/-- The fault of an argument is that of the first one with another kind. -/
theorem first_of_misfit? {fault : SymbolFault} (h : s.misfit? position kinds vs = some fault) :
    ∃ i kind v, kinds[i]? = some kind ∧ vs[i]? = some v ∧ (∀ j < i, FitsAt kinds vs j) ∧
      v.kindName ≠ kind.name ∧ fault = .argument (position + i) s.name kind v.shown := by
  induction kinds generalizing position vs with
  | nil =>
      rw [misfit?] at h
      · cases h
      · rintro _ _ _ _ ⟨⟩
  | cons kind kinds ih =>
      cases vs with
      | nil =>
          rw [misfit?] at h
          · cases h
          · rintro _ _ _ _ _ ⟨⟩
      | cons v vs =>
          rw [misfit?] at h
          split at h
          next named =>
            obtain ⟨i, kind', v', found, found', fits, other, rfl⟩ := ih h
            refine ⟨i + 1, kind', v', found, found', ?_, other, ?_⟩
            · intro j below
              cases j with
              | zero => exact congrArg some named
              | succ j => exact fits j (Nat.lt_of_succ_lt_succ below)
            · rw [Nat.add_assoc, Nat.add_comm 1 i]
          next other =>
            cases h
            exact ⟨0, kind, v, rfl, rfl, fun j below => absurd below (Nat.not_lt_zero j), other, rfl⟩

theorem misfit?_of_first {i : Nat} {kind : Kind} {v : Value} (found : kinds[i]? = some kind)
    (found' : vs[i]? = some v) (fits : ∀ j < i, FitsAt kinds vs j) (other : v.kindName ≠ kind.name) :
    s.misfit? position kinds vs = some (.argument (position + i) s.name kind v.shown) := by
  induction i generalizing position kinds vs with
  | zero =>
      cases kinds with
      | nil => cases found
      | cons first kinds =>
          cases vs with
          | nil => cases found'
          | cons first' vs =>
              cases found
              cases found'
              rw [misfit?, if_neg other, Nat.add_zero]
  | succ i ih =>
      cases kinds with
      | nil => cases found
      | cons first kinds =>
          cases vs with
          | nil => cases found'
          | cons first' vs =>
              have named : first'.kindName = first.name := Option.some.inj (fits 0 (Nat.succ_pos i))
              rw [misfit?, if_pos named,
                ih found found' fun j below => fits (j + 1) (Nat.succ_lt_succ below),
                Nat.add_assoc, Nat.add_comm 1 i]

/-- Arguments that describe something are refused for their number, or for the first one with another
kind. -/
theorem fault_of_build {wss : List (List Word)} (spelled : List.Forall₂ Value.Words vs wss)
    {fault : SymbolFault} (h : s.build vs = .error fault) :
    (vs.length ≠ s.params.length ∧ fault = .arity s.name s.params.length vs.length) ∨
      vs.length = s.params.length ∧ ∃ i kind v, s.params[i]? = some kind ∧ vs[i]? = some v ∧
        (∀ j < i, FitsAt s.params vs j) ∧ v.kindName ≠ kind.name ∧
        fault = .argument (1 + i) s.name kind v.shown := by
  unfold build at h
  split at h
  next count =>
    cases h
    exact .inl ⟨count, rfl⟩
  next count =>
    have count := not_not.mp count
    split at h
    next fault' misfit =>
      cases h
      exact .inr ⟨count, first_of_misfit? misfit⟩
    next fits =>
      obtain ⟨v, joined⟩ := join_of_isA (isA_of_misfit? fits count spelled)
      rw [joined] at h
      cases h

end

end Symbol

namespace Term

/-- A term that is built is of the kind that its name tells. -/
theorem kind?_of_gives {t : Term} {v : Value} (h : t.Gives v) :
    t.kind?.map Kind.name = some v.kindName := by
  have named {name : String} (hn : t.name? = some name) :
      (Symbol.ofName? name).map (Kind.name ∘ Symbol.kind) = some v.kindName := by
    obtain ⟨vs, -, joined⟩ := join_of_gives hn h
    obtain ⟨s, rfl, built⟩ := joinSymbol_eq_ok_iff.mp joined
    rw [s.ofName?_name, Option.map_some, Function.comp_apply,
      Symbol.kindName_of_join (Symbol.join_of_build built)]
  cases t with
  | leaf name => rw [kind?, Option.map_map, named rfl]
  | node name args => rw [kind?, Option.map_map, named rfl]
  | literal text =>
      have built := h 0
      rw [build, atDepth, mapError_eq_ok_iff] at built
      cases read : Operand.ofLiteral text with
      | error fault =>
          rw [read] at built
          cases built
      | ok o =>
          rw [read] at built
          cases built
          rfl

theorem kind?_eq_some_iff {t : Term} {v : Value} (h : t.Gives v) {kind : Kind} :
    t.kind? = some kind ↔ v.kindName = kind.name := by
  have told := kind?_of_gives h
  constructor
  · intro same
    rw [same, Option.map_some] at told
    exact (Option.some.inj told).symm
  · intro same
    obtain ⟨kind', found, named⟩ := Option.map_eq_some_iff.mp told
    rw [found, Kind.name_inj (named.trans same)]

/-- An argument and what it is built to. -/
theorem gives_at {args : List Term} {vs : List Value} (given : List.Forall₂ Gives args vs) {i : Nat}
    {arg : Term} (found : args[i]? = some arg) : ∃ v, vs[i]? = some v ∧ arg.Gives v := by
  obtain ⟨below, rfl⟩ := List.getElem?_eq_some_iff.mp found
  have below' : i < vs.length := given.length_eq ▸ below
  exact ⟨vs[i], List.getElem?_eq_getElem below', given.get below below'⟩

/-- The kinds of arguments, told by their names and by what they are built to. -/
theorem fitsAt_iff {args : List Term} {vs : List Value} (given : List.Forall₂ Gives args vs)
    {kinds : List Kind} (count : args.length = kinds.length) (i : Nat) :
    Symbol.FitsAt kinds vs i ↔ args[i]?.bind kind? = kinds[i]? := by
  induction given generalizing kinds i with
  | nil =>
      rw [List.length_eq_zero_iff.mp count.symm]
      exact ⟨fun _ => rfl, fun _ => rfl⟩
  | cons first _ ih =>
      cases kinds with
      | nil => cases count
      | cons kind kinds =>
          cases i with
          | zero =>
              change some _ = some _ ↔ _ = some kind
              rw [Option.some_inj]
              exact (kind?_eq_some_iff first).symm
          | succ i => exact ih (Nat.succ.inj count) i

end Term

/-! ### Terms that were read -/

theorem Args.words_eq (args : Args) : args.words = args.toList.map Term.words := by
  match args with
  | .nil => rfl
  | .cons t rest => rw [Args.words, Args.toList, List.map_cons, rest.words_eq]

theorem Args.Proper.of_mem {args : Args} (h : args.Proper) {t : Term} (mem : t ∈ args.toList) :
    t.Proper := by
  match args with
  | .nil => cases mem
  | .cons first rest =>
      rcases List.mem_cons.mp mem with rfl | mem
      · exact h.1
      · exact h.2.of_mem mem

namespace Term

/-- The term can be written down: no argument list is empty, and each word is legal. -/
structure Sound (t : Term) : Prop where
  proper : t.Proper
  legal : ∀ w ∈ t.words, w.Legal

theorem sound_of_read {text : String} {t : Term} (h : read text = .ok t) : t.Sound :=
  ⟨(found_of_read h).1, (found_of_read h).2.2⟩

namespace Sound

variable {t : Term}

theorem arg (h : t.Sound) {a : Term} (mem : a ∈ t.args) : a.Sound := by
  cases t with
  | leaf name => cases mem
  | literal text => cases mem
  | node name args =>
      have legal := (Word.legal_node_iff.mp h.legal).2
      rw [args.words_eq] at legal
      exact ⟨h.proper.2.of_mem mem, legal _ (List.mem_map_of_mem mem)⟩

theorem sub (h : t.Sound) {p : List Nat} {s : Term} (found : t.at? p = some s) : s.Sound := by
  induction p generalizing t with
  | nil =>
      cases found
      exact h
  | cons i p ih =>
      obtain ⟨a, arg, found⟩ := Option.bind_eq_some_iff.mp found
      exact ih (h.arg (List.mem_of_getElem? arg)) found

theorem numeral {text : String} (h : (literal text).Sound) :
    ∃ n : Numeral, text = String.ofList n.chars := by
  obtain ⟨n, spelled⟩ := h.legal _ List.mem_cons_self
  exact ⟨n, by rw [← spelled, String.ofList_toList]⟩

theorem words (h : t.Sound) {v : Value} (given : t.Gives v) : v.Words t.words :=
  t.words_of_build h.proper h.legal (given 0)

theorem gives (h : t.Sound) {v : Value} (spelled : v.Words t.words) : t.Gives v := by
  have described : v.Described t.words := by
    cases v with
    | digit d =>
        rw [show t.words = _ from spelled]
        exact .digit d
    | operand o => exact .operand spelled
    | chain c => exact .chain spelled
    | plain d => cases spelled
  -- a proper term is told by its words, so the described term is this one
  obtain ⟨-, t', same, proper, built⟩ := described
  have read := TermState.readWords?_term t h.proper [] [] (by rintro w ⟨⟩)
  have read' := TermState.readWords?_term t' proper [] [] (by rintro w ⟨⟩)
  rw [same, read] at read'
  cases read'
  exact built

end Sound

theorem spelled_args {args : List Term} (h : ∀ a ∈ args, a.Sound) {vs : List Value}
    (given : List.Forall₂ Gives args vs) : List.Forall₂ Value.Words vs (args.map words) := by
  induction given with
  | nil => exact .nil
  | cons first _ ih =>
      obtain ⟨sound, sounds⟩ := List.forall_mem_cons.mp h
      exact .cons (sound.words first) (ih sounds)

end Term

/-! ### What is wrong with a term -/

theorem joinSymbol_unknown {name : String} (unknown : Symbol.ofName? name = none) (vs : List Value) :
    joinSymbol name vs = .error (.symbol (.unknown name)) := by
  rw [joinSymbol, Symbol.resolve, unknown]
  rfl

theorem joinSymbol_known {name : String} {s : Symbol} (known : Symbol.ofName? name = some s)
    (vs : List Value) : joinSymbol name vs = (s.build vs).mapError .symbol := by
  rw [joinSymbol, Symbol.resolve, known]
  rfl

theorem Operand.ofLiteral_chars (n : Numeral) : ofLiteral (String.ofList n.chars) =
    if 4300 < n.digits.length then .error (.numeral (.tooLong n.digits.length))
    else if -2147483648 ≤ n.value ∧ n.value ≤ 2147483647 then .ok (.encode n.value)
    else .error (.operandRange n.value) := by
  rw [ofLiteral, n.readInteger_chars]
  split
  · rfl
  · rfl

namespace Term

variable {t : Term} {vs : List Value}

theorem Gives.joined {name : String} {s : Symbol} {v : Value} (h : t.Gives v)
    (named : t.name? = some name) (known : Symbol.ofName? name = some s)
    (given : List.Forall₂ Gives t.args vs) : s.build vs = .ok v := by
  have built := h 0
  rwa [build_named named given, atDepth, joinSymbol_known known, mapError_eq_ok_iff,
    mapError_eq_ok_iff] at built

/-- Nothing is built from an ill-formed term. -/
theorem IllFormed.not_gives (h : t.IllFormed) (v : Value) : ¬ t.Gives v := by
  intro built
  obtain ⟨vs, given⟩ := args_give built
  cases h with
  | unknown named unknown =>
      have joined := built 0
      rw [build_named named given, joinSymbol_unknown unknown] at joined
      cases joined
  | count named known count =>
      have joined := built.joined named known given
      rw [Symbol.build, if_pos (given.length_eq ▸ count)] at joined
      cases joined
  | @kind _ _ _ _ i _ _ named known wanted found other differ =>
      have joined := built.joined named known given
      unfold Symbol.build at joined
      split at joined
      · cases joined
      next count =>
        split at joined
        · cases joined
        next fits =>
          -- the arguments are built, so their names tell the kinds that were compared
          have fit := Symbol.fitsAt_of_misfit? (not_not.mp count) fits i
          rw [fitsAt_iff given (given.length_eq.trans (not_not.mp count)), found, wanted] at fit
          exact differ (Option.some.inj (other.symm.trans fit))
  | range outside =>
      have read := built 0
      rw [build, Operand.ofLiteral_chars, if_neg outside] at read
      split at read
      · cases read
      · cases read

theorem Overlong.fails {n : Numeral} (h : t.Overlong n) :
    t.Fails (.numeral (.tooLong n.digits.length)) := by
  obtain ⟨rfl, many⟩ := h
  refine ⟨⟨[], .nil⟩, fun depth => ?_⟩
  rw [build, Operand.ofLiteral_chars, if_pos many]
  rfl

/-- What is said about a term whose arguments are built is why it is not built, unless it is a number
that is not even read. -/
theorem Reports.fails {fault : ArtifactFault} (h : t.Reports fault) (sound : t.Sound)
    (short : ∀ n, ¬ t.Overlong n) (given : List.Forall₂ Gives t.args vs) : t.Fails fault := by
  refine ⟨⟨vs, given⟩, fun depth => ?_⟩
  cases h with
  | unknown named unknown =>
      rw [build_named named given, joinSymbol_unknown unknown]
      rfl
  | count named known count =>
      rw [build_named named given, joinSymbol_known known, Symbol.build,
        if_pos (given.length_eq ▸ count), given.length_eq, Symbol.ofName?_eq_some_iff.mp known]
      rfl
  | @kind _ arg name s i kind v named known count wanted found fits differ spelled =>
      have value : arg.Gives v := (sound.arg (List.mem_of_getElem? found)).gives spelled
      obtain ⟨v', found', value'⟩ := gives_at given found
      cases value.unique value'
      have first : s.misfit? 1 s.params vs = some (.argument (1 + i) s.name kind v.shown) :=
        Symbol.misfit?_of_first wanted found'
          (fun j below => (fitsAt_iff given count j).mpr (fits j below))
          (mt (kind?_eq_some_iff value).mpr differ)
      rw [build_named named given, joinSymbol_known known, Symbol.build,
        if_neg (not_not.mpr (given.length_eq.symm.trans count)), first,
        Symbol.ofName?_eq_some_iff.mp known, Nat.add_comm 1 i]
      rfl
  | @range n outside =>
      rw [build, Operand.ofLiteral_chars, if_neg fun many => short n ⟨rfl, many⟩, if_neg outside]
      rfl

/-- A term that is not built although its arguments are says why, unless it is a number that is not
even read. -/
theorem Fails.reports {fault : ArtifactFault} (h : t.Fails fault) (sound : t.Sound)
    (short : ∀ n, ¬ t.Overlong n) : t.Reports fault := by
  obtain ⟨⟨vs, given⟩, failed⟩ := h
  cases named : t.name? with
  | none =>
      cases t with
      | leaf name => cases named
      | node name args => cases named
      | literal text =>
          obtain ⟨n, rfl⟩ := sound.numeral
          have unread := failed 0
          rw [build, Operand.ofLiteral_chars] at unread
          rw [if_neg fun many => short n ⟨rfl, many⟩] at unread
          split at unread
          next => cases unread
          next outside =>
            cases unread
            exact .range outside
  | some name =>
      have unjoined := failed 0
      rw [build_named named given] at unjoined
      obtain ⟨fault', unjoined, ⟨⟩⟩ := mapError_eq_error_iff.mp unjoined
      cases known : Symbol.ofName? name with
      | none =>
          rw [joinSymbol_unknown known] at unjoined
          cases unjoined
          exact .unknown named known
      | some s =>
          rw [joinSymbol_known known] at unjoined
          obtain ⟨fault', unbuilt, rfl⟩ := mapError_eq_error_iff.mp unjoined
          have spelled := spelled_args (fun a mem => sound.arg mem) given
          rcases Symbol.fault_of_build spelled unbuilt with
            ⟨count, rfl⟩ | ⟨count, i, kind, v, wanted, found, fits, other, rfl⟩
          · rw [← given.length_eq, Symbol.ofName?_eq_some_iff.mp known]
            exact .count named known (given.length_eq ▸ count)
          · have count := given.length_eq.trans count
            obtain ⟨below, -⟩ := List.getElem?_eq_some_iff.mp found
            have arg := List.getElem?_eq_getElem (given.length_eq ▸ below)
            obtain ⟨v', found', value⟩ := gives_at given arg
            cases Option.some.inj (found.symm.trans found')
            rw [Nat.add_comm 1 i, Symbol.ofName?_eq_some_iff.mp known]
            exact .kind named known count wanted arg
              (fun j before => (fitsAt_iff given count j).mp (fits j before))
              (mt (kind?_eq_some_iff value).mp other)
              ((sound.arg (List.mem_of_getElem? arg)).words value)

theorem Fails.illFormed {fault : ArtifactFault} (h : t.Fails fault) (sound : t.Sound)
    (short : ∀ n, ¬ t.Overlong n) : t.IllFormed := by
  obtain ⟨vs, given⟩ := h.1
  cases h.reports sound short with
  | unknown named unknown => exact .unknown named unknown
  | count named known count => exact .count named known count
  | kind named known _ wanted found _ differ _ =>
      obtain ⟨v, -, value⟩ := gives_at given found
      obtain ⟨other, told, -⟩ := Option.map_eq_some_iff.mp (kind?_of_gives value)
      exact .kind named known wanted found told fun same => differ (told.trans (congrArg some same))
  | range outside => exact .range outside

/-- Nothing that is said about an ill-formed term is said about a number that is not read. -/
theorem not_reports_numeral (t : Term) (fault : Number.IntegerFault) : ¬ t.Reports (.numeral fault) := by
  intro h
  cases h

end Term

end TapeChain
