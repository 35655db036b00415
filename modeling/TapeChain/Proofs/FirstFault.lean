import TapeChain.Proofs.IllFormed

/-! Which fault is reported. Of all ill-formed subterms of a term the deepest is reported, and of
equally deep ones the leftmost. That is the one that a worklist in the order of visits meets first,
and in this order no subterm is joined before its arguments. -/
namespace TapeChain

/-! ### The first fault -/

/-- The subterm of one of the arguments. -/
def Args.at? (args : Args) : List Nat → Option Term
  | [] => none
  | i :: p => args.toList[i]?.bind (·.at? p)

/-- Of the terms at positions, the one at the given position fails first. -/
structure FailsFirst (find : List Nat → Option Term) (p : List Nat) (fault : ArtifactFault) :
    Prop where
  fails : ∃ s, find p = some s ∧ s.Fails fault
  first : ∀ q u fault', find q = some u → u.Fails fault' → q = p ∨ Sooner p q

theorem FailsFirst.deepest {find : List Nat → Option Term} {p : List Nat} {fault : ArtifactFault}
    (h : FailsFirst find p fault) {q : List Nat} {u : Term} {fault' : ArtifactFault}
    (found : find q = some u) (fails : u.Fails fault') : q.length ≤ p.length := by
  rcases h.first q u fault' found fails with rfl | deeper | ⟨level, -⟩
  · exact Nat.le_refl _
  · exact Nat.le_of_lt deeper
  · exact Nat.le_of_eq level.symm

/-- What is inside a term that is built is built. -/
theorem Term.Gives.sub {t : Term} {v : Value} (h : t.Gives v) {p : List Nat} {s : Term}
    (found : t.at? p = some s) : ∃ w, s.Gives w := by
  induction p generalizing t v with
  | nil =>
      cases found
      exact ⟨v, h⟩
  | cons i p ih =>
      obtain ⟨a, arg, found⟩ := Option.bind_eq_some_iff.mp found
      obtain ⟨vs, given⟩ := args_give h
      obtain ⟨w, -, given⟩ := gives_at given arg
      exact ih given found

theorem Term.Gives.none_fails {t : Term} {v : Value} (h : t.Gives v) {p : List Nat} {s : Term}
    (found : t.at? p = some s) {fault : ArtifactFault} : ¬ s.Fails fault := by
  obtain ⟨w, given⟩ := h.sub found
  exact fun fails => fails.not_gives given

/-- A term whose arguments are built is built, or fails where it stands. -/
theorem Term.fails_of_build {t : Term} {vs : List Value} (given : List.Forall₂ Gives t.args vs)
    {depth : Nat} {e : DeepFault} (h : t.build depth = .error e) :
    e.depth = depth ∧ t.Fails e.fault := by
  have ⟨r, local_⟩ : ∃ r, ∀ depth, t.build depth = atDepth depth r := by
    cases t with
    | leaf name => exact ⟨_, fun depth => rfl⟩
    | literal text => exact ⟨_, fun depth => rfl⟩
    | node name args => exact ⟨_, fun depth => build_named rfl given depth⟩
  rw [local_] at h
  obtain ⟨fault, failed, rfl⟩ := mapError_eq_error_iff.mp h
  refine ⟨rfl, ⟨vs, given⟩, fun depth' => ?_⟩
  rw [local_, failed]
  rfl

namespace FailsFirst

variable {t : Term} {rest : Args} {fault : ArtifactFault}

theorem root (h : t.Fails fault) : FailsFirst t.at? [] fault := by
  refine ⟨⟨t, rfl, h⟩, ?_⟩
  intro q u fault' found fails
  cases q with
  | nil => exact .inl rfl
  | cons i q =>
      obtain ⟨a, arg, found⟩ := Option.bind_eq_some_iff.mp found
      obtain ⟨vs, given⟩ := h.1
      obtain ⟨v, -, built⟩ := Term.gives_at given arg
      exact absurd fails (built.none_fails found)

/-- A fault in the first argument comes first if it is as deep as each one behind it. -/
theorem head {p : List Nat} (h : FailsFirst t.at? p fault)
    (behind : ∀ i q u fault', rest.at? (i :: q) = some u → u.Fails fault' → q.length ≤ p.length) :
    FailsFirst (Args.cons t rest).at? (0 :: p) fault := by
  refine ⟨h.fails, ?_⟩
  intro q u fault' found fails
  match q with
  | 0 :: q =>
      rcases h.first q u fault' found fails with rfl | sooner
      · exact .inl rfl
      · exact .inr (sooner.cons 0)
  | (i + 1) :: q =>
      have level := behind i q u fault' found fails
      rcases Nat.lt_or_eq_of_le level with deeper | same
      · exact .inr (.inl (Nat.succ_lt_succ deeper))
      · refine .inr (.inr ⟨congrArg Nat.succ same.symm, ?_⟩)
        exact List.cons_lt_cons_iff.mpr (.inl (Nat.succ_pos i))

/-- A fault behind the first argument comes first if it is deeper than each one in it. -/
theorem tail {i : Nat} {p : List Nat} (h : FailsFirst rest.at? (i :: p) fault)
    (ahead : ∀ q u fault', t.at? q = some u → u.Fails fault' → q.length < p.length) :
    FailsFirst (Args.cons t rest).at? ((i + 1) :: p) fault := by
  refine ⟨h.fails, ?_⟩
  intro q u fault' found fails
  match q with
  | 0 :: q => exact .inr (.inl (Nat.succ_lt_succ (ahead q u fault' found fails)))
  | (j + 1) :: q =>
      rcases h.first (j :: q) u fault' found fails with same | deeper | ⟨level, left⟩
      · cases same
        exact .inl rfl
      · exact .inr (.inl deeper)
      · refine .inr (.inr ⟨level, ?_⟩)
        rw [List.cons_lt_cons_iff] at left ⊢
        exact left.imp Nat.succ_lt_succ fun ⟨same, left⟩ => ⟨congrArg Nat.succ same, left⟩

end FailsFirst

mutual

/-- Building reports the first fault. -/
theorem Term.failsFirst_of_build : (t : Term) → ∀ {depth : Nat} {e : DeepFault},
    t.build depth = .error e → ∃ p, e.depth = depth + p.length ∧ FailsFirst t.at? p e.fault
  | .leaf name, depth, e, h => by
      obtain ⟨here, fails⟩ := Term.fails_of_build (t := .leaf name) .nil h
      exact ⟨[], here, .root fails⟩
  | .literal text, depth, e, h => by
      obtain ⟨here, fails⟩ := Term.fails_of_build (t := .literal text) .nil h
      exact ⟨[], here, .root fails⟩
  | .node name args, depth, e, h => by
      cases inner : args.build (depth + 1) with
      | ok values =>
          have given := args.build_eq_ok_iff.mp inner
          obtain ⟨here, fails⟩ := Term.fails_of_build (t := .node name args) given h
          exact ⟨[], here, .root fails⟩
      | error e' =>
          rw [Term.build, inner] at h
          cases h
          obtain ⟨i, p, level, first⟩ := args.failsFirst_of_build inner
          refine ⟨i :: p, by rw [List.length_cons, level]; omega, first.fails, ?_⟩
          intro q u fault found fails
          cases q with
          | cons j q => exact first.first (j :: q) u fault found fails
          | nil =>
              -- the root does not fail itself: its arguments are not all built
              cases found
              obtain ⟨vs, given⟩ := fails.1
              rw [args.build_eq_ok_iff.mpr given] at inner
              cases inner

theorem Args.failsFirst_of_build : (args : Args) → ∀ {depth : Nat} {e : DeepFault},
    args.build depth = .error e →
      ∃ i p, e.depth = depth + p.length ∧ FailsFirst args.at? (i :: p) e.fault
  | .nil, _, _, h => by cases h
  | .cons t rest, depth, e, h => by
      rw [Args.build] at h
      split at h
      next => cases h
      next e' values here later =>
        cases h
        obtain ⟨p, level, first⟩ := t.failsFirst_of_build here
        refine ⟨0, p, level, first.head ?_⟩
        intro i q u fault found fails
        obtain ⟨a, arg, found⟩ := Option.bind_eq_some_iff.mp found
        obtain ⟨v, -, built⟩ := Term.gives_at (rest.build_eq_ok_iff.mp later) arg
        exact absurd fails (built.none_fails found)
      next value e' here later =>
        cases h
        obtain ⟨i, p, level, first⟩ := rest.failsFirst_of_build later
        refine ⟨i + 1, p, level, first.tail ?_⟩
        intro q u fault found fails
        exact absurd fails ((t.gives_of_build here).none_fails found)
      next left right here later =>
        -- the later fault is reported only if it is deeper, so at one depth the left one wins
        cases h
        obtain ⟨p, level, first⟩ := t.failsFirst_of_build here
        obtain ⟨i, p', level', first'⟩ := rest.failsFirst_of_build later
        unfold DeepFault.first
        split
        next deeper =>
          refine ⟨i + 1, p', level', first'.tail ?_⟩
          intro q u fault found fails
          have := first.deepest found fails
          omega
        next shallower =>
          refine ⟨0, p, level, first.head ?_⟩
          intro j q u fault found fails
          have := first'.deepest found fails
          rw [List.length_cons, List.length_cons] at this
          omega

end

namespace Term

theorem gives_or_fails (t : Term) : (∃ v, t.Gives v) ∨ ∃ p fault, FailsFirst t.at? p fault := by
  cases built : t.build 0 with
  | ok v => exact .inl ⟨v, t.gives_of_build built⟩
  | error e =>
      obtain ⟨p, -, first⟩ := t.failsFirst_of_build built
      exact .inr ⟨p, e.fault, first⟩

end Term

/-- No subterm that cannot be built comes sooner than the one that fails first: if it does not fail
itself, one inside it does. -/
theorem FailsFirst.unbuilt_later {t : Term} {p : List Nat} {fault : ArtifactFault}
    (h : FailsFirst t.at? p fault) {q : List Nat} {u : Term} (found : t.at? q = some u)
    (unbuilt : ∀ v, ¬ u.Gives v) : q = p ∨ Sooner p q := by
  rcases u.gives_or_fails with ⟨v, given⟩ | ⟨r, fault', inner⟩
  · exact absurd given (unbuilt v)
  · obtain ⟨s, found', fails⟩ := inner.fails
    have place : t.at? (q ++ r) = some s := by
      rw [Term.at?_append, found, Option.bind_some, found']
    have order := h.first (q ++ r) s fault' place fails
    cases r with
    | nil => rwa [List.append_nil] at order
    | cons i r =>
        have inside := Sooner.inside q (List.cons_ne_nil i r)
        rcases order with rfl | sooner
        · exact .inr inside
        · exact .inr (sooner.trans inside)

/-! ### The worklist -/

inductive AssemblyFault where
  | missing (position : List Nat)
  | fault (fault : ArtifactFault)

/-- What is built so far, by position. -/
abbrev Built := List Nat → Option Value

/-- The values of subterms that are to be built already. -/
def Built.gather (built : Built) : List Placed → Except AssemblyFault (List Value)
  | [] => .ok []
  | y :: ys =>
    match built y.1 with
    | none => .error (.missing y.1)
    | some v => (built.gather ys).map (v :: ·)

/-- One subterm from its arguments. -/
def Placed.assemble (built : Built) (x : Placed) : Except AssemblyFault Value :=
  match x.2 with
  | .literal text => ((Operand.ofLiteral text).map .operand).mapError .fault
  | .leaf name => (joinSymbol name []).mapError .fault
  | .node name _ =>
    match built.gather x.children with
    | .error e => .error e
    | .ok values => (joinSymbol name values).mapError .fault

/-- Subterms one after the other. -/
def assembleAll (built : Built) : List Placed → Except AssemblyFault Built
  | [] => .ok built
  | x :: rest =>
    match x.assemble built with
    | .error e => .error e
    | .ok v => assembleAll (Function.update built x.1 (some v)) rest

/-- A term from all its subterms, in the order in which they are visited. -/
def Term.assemble (t : Term) : Except AssemblyFault Value :=
  match assembleAll (fun _ => none) t.order with
  | .error e => .error e
  | .ok built =>
    match built [] with
    | none => .error (.missing [])
    | some v => .ok v

theorem Placed.map_children (x : Placed) : x.children.map Prod.snd = x.2.args := by
  rw [children, List.map_map]
  exact List.zipIdx_map_fst 0 x.2.args

theorem Built.gather_eq {built : Built} {ys : List Placed}
    (h : ∀ y ∈ ys, ∃ v, built y.1 = some v ∧ y.2.Gives v) :
    ∃ vs, built.gather ys = .ok vs ∧ List.Forall₂ Term.Gives (ys.map Prod.snd) vs := by
  induction ys with
  | nil => exact ⟨[], rfl, .nil⟩
  | cons y ys ih =>
      obtain ⟨⟨v, found, given⟩, others⟩ := List.forall_mem_cons.mp h
      obtain ⟨vs, gathered, given'⟩ := ih others
      refine ⟨v :: vs, ?_, .cons given given'⟩
      rw [gather, found, gathered]
      rfl

theorem mapError_atDepth (depth : Nat) (r : Except ArtifactFault Value) :
    (atDepth depth r).mapError DeepFault.fault = r := by
  cases r with
  | error fault => rfl
  | ok v => rfl

/-- With its arguments at hand a subterm is assembled as it is built. -/
theorem Placed.assemble_eq {built : Built} {x : Placed}
    (h : ∀ y ∈ x.children, ∃ v, built y.1 = some v ∧ y.2.Gives v) :
    (∃ v, x.2.Gives v ∧ x.assemble built = .ok v) ∨
      ∃ fault, x.2.Fails fault ∧ x.assemble built = .error (.fault fault) := by
  obtain ⟨vs, gathered, given⟩ := Built.gather_eq h
  rw [x.map_children] at given
  have same : x.assemble built =
      ((x.2.build 0).mapError DeepFault.fault).mapError AssemblyFault.fault := by
    obtain ⟨p, t⟩ := x
    cases t with
    | leaf name => rw [Term.build, mapError_atDepth, assemble]
    | literal text => rw [Term.build, mapError_atDepth, assemble]
    | node name args => rw [Term.build_named rfl given, mapError_atDepth, assemble, gathered]
  rw [same]
  cases result : x.2.build 0 with
  | ok v => exact .inl ⟨v, x.2.gives_of_build result, rfl⟩
  | error e => exact .inr ⟨e.fault, (Term.fails_of_build given result).2, rfl⟩

/-- In the middle of the worklist all that is not still to come is built. -/
structure Covers (t : Term) (built : Built) (todo : List Placed) : Prop where
  done : ∀ p u, t.at? p = some u → (p, u) ∈ todo ∨ ∃ v, built p = some v ∧ u.Gives v
  sorted : todo.Pairwise fun x y => Sooner x.1 y.1
  inside : ∀ x ∈ todo, t.at? x.1 = some x.2

namespace Covers

variable {t : Term} {built : Built} {x : Placed} {todo : List Placed}

theorem start (t : Term) : Covers t (fun _ => none) t.order where
  done _ _ found := .inl (Term.mem_order.mpr found)
  sorted := t.order_sorted
  inside _ mem := Term.mem_order.mp mem

/-- What is sooner than all that is to come is built. -/
theorem sooner (h : Covers t built (x :: todo)) {q : List Nat} {u : Term} (found : t.at? q = some u)
    (before : Sooner q x.1) : ∃ v, built q = some v ∧ u.Gives v := by
  rcases h.done q u found with pending | built
  · rcases List.mem_cons.mp pending with rfl | later
    · exact absurd before (Sooner.irrefl _)
    · have after := (List.pairwise_cons.mp h.sorted).1 _ later
      exact absurd (before.trans after) (Sooner.irrefl _)
  · exact built

/-- No subterm comes before its arguments. -/
theorem arguments (h : Covers t built (x :: todo)) :
    ∀ y ∈ x.children, ∃ v, built y.1 = some v ∧ y.2.Gives v := by
  intro y mem
  obtain ⟨i, place, arg⟩ := Placed.mem_children.mp mem
  refine h.sooner ?_ (place ▸ Sooner.inside x.1 (List.cons_ne_nil i []))
  rw [place, Term.at?_append, h.inside x List.mem_cons_self, Option.bind_some, Term.at?, arg]
  rfl

theorem next (h : Covers t built (x :: todo)) {v : Value} (given : x.2.Gives v) :
    Covers t (Function.update built x.1 (some v)) todo where
  done p u found := by
    by_cases here : p = x.1
    · subst here
      cases Option.some.inj ((h.inside x List.mem_cons_self).symm.trans found)
      exact .inr ⟨v, Function.update_self .., given⟩
    · rcases h.done p u found with pending | ⟨w, known, given'⟩
      · rcases List.mem_cons.mp pending with same | later
        · exact absurd (congrArg Prod.fst same) here
        · exact .inl later
      · exact .inr ⟨w, by rw [Function.update_of_ne here, known], given'⟩
  sorted := (List.pairwise_cons.mp h.sorted).2
  inside y mem := h.inside y (List.mem_cons_of_mem x mem)

/-- The worklist builds all subterms, or it stops at a failing one with all sooner ones built. -/
theorem run (h : Covers t built todo) :
    (∃ built', assembleAll built todo = .ok built' ∧ Covers t built' []) ∨
      ∃ p s fault, t.at? p = some s ∧ s.Fails fault ∧
        assembleAll built todo = .error (.fault fault) ∧
        ∀ q u, t.at? q = some u → Sooner q p → ∃ v, u.Gives v := by
  induction todo generalizing built with
  | nil => exact .inl ⟨built, rfl, h⟩
  | cons x todo ih =>
      rw [assembleAll]
      rcases Placed.assemble_eq h.arguments with ⟨v, given, made⟩ | ⟨fault, fails, made⟩
      · rw [made]
        exact ih (h.next given)
      · rw [made]
        exact .inr ⟨x.1, x.2, fault, h.inside x List.mem_cons_self, fails, rfl,
          fun q u found before => (h.sooner found before).imp fun _ => And.right⟩

end Covers

/-- The worklist never misses an argument, and it comes to the same as building. -/
theorem Term.assemble_eq_build (t : Term) :
    t.assemble = ((t.build 0).mapError DeepFault.fault).mapError AssemblyFault.fault := by
  unfold assemble
  rcases (Covers.start t).run with ⟨built, made, covers⟩ | ⟨p, s, fault, found, fails, made, sooner⟩
  · rw [made]
    rcases covers.done [] t rfl with pending | ⟨v, known, given⟩
    · cases pending
    · dsimp only
      rw [known, given 0]
      rfl
  · rw [made]
    cases built : t.build 0 with
    | ok v => exact absurd fails ((t.gives_of_build built).none_fails found)
    | error e =>
        -- what is reported cannot come sooner than where the worklist stops, nor later
        obtain ⟨p', -, first⟩ := t.failsFirst_of_build built
        obtain ⟨s', found', fails'⟩ := first.fails
        rcases first.first p s fault found fails with rfl | before
        · cases Option.some.inj (found.symm.trans found')
          rw [fails.unique fails']
          rfl
        · obtain ⟨v, given⟩ := sooner p' s' found' before
          exact absurd given fails'.not_gives

/-! ### The reported fault -/

theorem Chain.ofText_of_read {text : String} {t : Term} (read : Term.read text = .ok t) :
    Chain.ofText text = (t.build 0).mapError DeepFault.fault >>= Value.toChain := by
  rw [ofText, read]
  rfl

/-- The fault is the one of the deepest ill-formed subterm, of the leftmost one at that depth. -/
def Term.DeepestReported (t : Term) (fault : ArtifactFault) : Prop :=
  ∃ p s, t.at? p = some s ∧ s.IllFormed ∧
    (∀ q u, t.at? q = some u → u.IllFormed → q = p ∨ Sooner p q) ∧
    ∀ fault', s.Reports fault' ↔ fault' = fault

/-- The term is ill-formed, or a number with more digits than are ever read. -/
def Term.Refused (t : Term) : Prop := t.IllFormed ∨ ∃ n, t.Overlong n

namespace Term

theorem Refused.not_gives {t : Term} (h : t.Refused) (v : Value) : ¬ t.Gives v := by
  rcases h with bad | ⟨n, long⟩
  · exact bad.not_gives v
  · exact long.fails.not_gives

theorem Fails.refused {t : Term} {fault : ArtifactFault} (h : t.Fails fault) (sound : t.Sound) :
    t.Refused := by
  by_cases long : ∃ n, t.Overlong n
  · exact .inr long
  · exact .inl (h.illFormed sound (not_exists.mp long))

theorem Fails.reports_iff {t : Term} {fault : ArtifactFault} (h : t.Fails fault) (sound : t.Sound)
    (short : ∀ n, ¬ t.Overlong n) (fault' : ArtifactFault) : t.Reports fault' ↔ fault' = fault := by
  constructor
  · intro reports
    obtain ⟨vs, given⟩ := h.1
    exact (reports.fails sound short given).unique h
  · rintro rfl
    exact h.reports sound short

/-- A text with something to refuse in it is refused, for what fails first. -/
theorem failsFirst_of_refused {text : String} {t : Term} (read : Term.read text = .ok t)
    {q : List Nat} {u : Term} (found : t.at? q = some u) (refused : u.Refused) :
    ∃ p fault, FailsFirst t.at? p fault ∧ Chain.ofText text = .error fault := by
  cases built : t.build 0 with
  | ok v =>
      obtain ⟨w, given⟩ := (t.gives_of_build built).sub found
      exact absurd given (refused.not_gives w)
  | error e =>
      obtain ⟨p, -, first⟩ := t.failsFirst_of_build built
      exact ⟨p, e.fault, first, Chain.ofText_of_build read built⟩

end Term

/-- Of several subterms of an artifact text that are ill-formed or overlong numbers the deepest is
reported, the leftmost one of those. If it is not an overlong number, first an unknown name is
reported, then the number of its arguments, then the first argument of the wrong kind; an overlong
number is reported as such. So without overlong numbers the deepest ill-formed subterm is reported.
A text with nothing to refuse describes something. A worklist that visits subterms from the deepest
level up finds each argument built, and comes to the same. -/
theorem deepest_ill_formed_reported (text : String) (t : Term) (read : Term.read text = .ok t) :
    ((∃ q u, t.at? q = some u ∧ u.IllFormed) → (∀ q u n, t.at? q = some u → ¬ u.Overlong n) →
      ∃ fault, Chain.ofText text = .error fault ∧ t.DeepestReported fault) ∧
    ((∃ q u, t.at? q = some u ∧ u.Refused) →
      ∃ p s fault, t.at? p = some s ∧ s.Refused ∧
        (∀ q u, t.at? q = some u → u.Refused → q = p ∨ Sooner p q) ∧
        Chain.ofText text = .error fault ∧
        ((∀ n, ¬ s.Overlong n) → ∀ fault', s.Reports fault' ↔ fault' = fault) ∧
        ∀ n, s.Overlong n → fault = .numeral (.tooLong n.digits.length)) ∧
    ((∀ q u, t.at? q = some u → ¬ u.Refused) →
      ∃ v : Value, v.Words t.words ∧ Chain.ofText text = v.toChain) ∧
    ∃ r : Except ArtifactFault Value, t.assemble = r.mapError .fault ∧
      Chain.ofText text = r >>= Value.toChain := by
  have sound := Term.sound_of_read read
  refine ⟨?_, ?_, ?_, ?_⟩
  · rintro ⟨q, u, found, bad⟩ short
    obtain ⟨p, fault, first, reported⟩ := Term.failsFirst_of_refused read found (.inl bad)
    obtain ⟨s, found, fails⟩ := first.fails
    have short := fun n => short p s n found
    refine ⟨fault, reported, p, s, found, fails.illFormed (sound.sub found) short, ?_,
      fails.reports_iff (sound.sub found) short⟩
    intro q u found bad
    exact first.unbuilt_later found bad.not_gives
  · rintro ⟨q, u, found, refused⟩
    obtain ⟨p, fault, first, reported⟩ := Term.failsFirst_of_refused read found refused
    obtain ⟨s, found, fails⟩ := first.fails
    refine ⟨p, s, fault, found, fails.refused (sound.sub found), ?_, reported,
      fails.reports_iff (sound.sub found), fun n long => fails.unique long.fails⟩
    intro q u found refused
    exact first.unbuilt_later found refused.not_gives
  · intro fine
    rcases t.gives_or_fails with ⟨v, given⟩ | ⟨p, fault, first⟩
    · refine ⟨v, sound.words given, ?_⟩
      rw [Chain.ofText_of_read read, given 0]
      rfl
    · obtain ⟨s, found, fails⟩ := first.fails
      exact absurd (fails.refused (sound.sub found)) (fine p s found)
  · exact ⟨_, t.assemble_eq_build, Chain.ofText_of_read read⟩

/-! ### Terms that are written down -/

theorem spaced_flatMap (ws : List Word) : Spaced ws (ws.flatMap fun w => w.text.toList) := by
  induction ws with
  | nil => exact .nil
  | cons w ws ih => exact .word ih

theorem Args.proper_of_forall {args : Args} (h : ∀ t ∈ args.toList, t.Proper) : args.Proper := by
  match args with
  | .nil => exact trivial
  | .cons t rest =>
      obtain ⟨first, others⟩ := List.forall_mem_cons.mp h
      exact ⟨first, Args.proper_of_forall others⟩

theorem Term.words_subset {t s : Term} {p : List Nat} (found : t.at? p = some s) :
    s.words ⊆ t.words := by
  induction p generalizing t with
  | nil =>
      cases found
      exact List.Subset.refl _
  | cons i p ih =>
      obtain ⟨a, arg, found⟩ := Option.bind_eq_some_iff.mp found
      refine List.Subset.trans (ih found) ?_
      cases t with
      | leaf name => cases arg
      | literal text => cases arg
      | node name args =>
          rw [words, args.words_eq]
          exact Word.mem_node (List.mem_map_of_mem (List.mem_of_getElem? arg))

/-- A term without numbers among its words has no overlong number in it. -/
theorem Term.not_overlong {t : Term} (h : ∀ w ∈ t.words, w.kind ≠ .number) {q : List Nat} {u : Term}
    {n : Numeral} (found : t.at? q = some u) : ¬ u.Overlong n := by
  rintro ⟨rfl, -⟩
  exact h _ (words_subset found List.mem_cons_self) rfl

namespace Term.Sound

theorem leaf {name : String} (h : Word.IsName name.toList) : (Term.leaf name).Sound := by
  refine ⟨trivial, ?_⟩
  rintro w (_ | ⟨_, ⟨⟩⟩)
  exact h

theorem literal (n : Numeral) : (Term.literal (String.ofList n.chars)).Sound := by
  refine ⟨trivial, ?_⟩
  rintro w (_ | ⟨_, ⟨⟩⟩)
  exact Word.legal_number n

theorem node {name : String} {first : Term} {rest : Args} (h : Word.IsName name.toList)
    (each : ∀ a ∈ first :: rest.toList, a.Sound) : (Term.node name (.cons first rest)).Sound := by
  have proper : (Args.cons first rest).Proper := Args.proper_of_forall fun a mem => (each a mem).proper
  refine ⟨⟨by rintro ⟨⟩, proper⟩, Word.legal_node_iff.mpr ⟨h, ?_⟩⟩
  rw [Args.words_eq]
  intro u mem
  obtain ⟨a, arg, rfl⟩ := List.mem_map.mp mem
  exact (each a arg).legal

/-- A sound term is read from its words, one behind the other. -/
theorem read {t : Term} (h : t.Sound) {text : String}
    (letters : text.toList = t.words.flatMap fun w => w.text.toList) : Term.read text = .ok t :=
  Term.read_of_found h.proper ⟨letters ▸ spaced_flatMap t.words, h.legal⟩

end Term.Sound

/-- Of four unknown names two are deepest, and the left one of these is reported. -/
theorem left_deep_name_reported :
    ∃ t, Term.read "Nope<Bad,Loop<Oops,Jump>>" = .ok t ∧
      ((∃ q u, t.at? q = some u ∧ u.IllFormed) ∧ ∀ q u n, t.at? q = some u → ¬ u.Overlong n) ∧
      Chain.ofText "Nope<Bad,Loop<Oops,Jump>>" = .error (.symbol (.unknown "Oops")) ∧
      t.DeepestReported (.symbol (.unknown "Oops")) := by
  have bad : Symbol.ofName? "Bad" = none := by decide
  have oops : Symbol.ofName? "Oops" = none := by decide
  have jump : Symbol.ofName? "Jump" = none := by decide
  have pair {a b : Term} (first : a.Sound) (second : b.Sound) : ∀ u ∈ [a, b], u.Sound := by
    rintro u (_ | ⟨_, _ | ⟨_, ⟨⟩⟩⟩)
    · exact first
    · exact second
  have inner : (Term.node "Loop" (.cons (.leaf "Oops") (.cons (.leaf "Jump") .nil))).Sound :=
    .node (by decide) (pair (.leaf (by decide)) (.leaf (by decide)))
  have outer : (Term.node "Nope" (.cons (.leaf "Bad") (.cons (.node "Loop" (.cons (.leaf "Oops")
      (.cons (.leaf "Jump") .nil))) .nil))).Sound :=
    .node (by decide) (pair (.leaf (by decide)) inner)
  have read : Term.read "Nope<Bad,Loop<Oops,Jump>>" = .ok _ := outer.read (by decide)
  have built : (Term.node "Nope" (.cons (.leaf "Bad") (.cons (.node "Loop" (.cons (.leaf "Oops")
      (.cons (.leaf "Jump") .nil))) .nil))).build 0 = .error ⟨2, .symbol (.unknown "Oops")⟩ := by
    simp only [Term.build, Args.build, joinSymbol_unknown bad, joinSymbol_unknown oops,
      joinSymbol_unknown jump]
    rfl
  have short : ∀ q u n, (Term.node "Nope" (.cons (.leaf "Bad") (.cons (.node "Loop"
      (.cons (.leaf "Oops") (.cons (.leaf "Jump") .nil))) .nil))).at? q = some u →
        ¬ u.Overlong n := fun q u n found => Term.not_overlong (by decide) found
  obtain ⟨fault, reported, deepest⟩ :=
    (deepest_ill_formed_reported _ _ read).1 ⟨[0], _, rfl, .unknown rfl bad⟩ short
  have told := Chain.ofText_of_build read built
  cases told.symm.trans reported
  exact ⟨_, read, ⟨⟨[0], _, rfl, .unknown rfl bad⟩, short⟩, told, deepest⟩

/-- An unknown name around a zero that is written with 4301 digits: the zero is reported, which is not
ill-formed at all. -/
theorem long_zero_reported_instead :
    ∃ t, Term.read (String.ofList ("Nope<".toList ++ List.replicate 4301 '0' ++ ['>'])) = .ok t ∧
      (∃ q u, t.at? q = some u ∧ u.IllFormed) ∧
      ¬ ∃ fault, Chain.ofText (String.ofList ("Nope<".toList ++ List.replicate 4301 '0' ++ ['>'])) =
        .error fault ∧ t.DeepestReported fault := by
  have zeros : ∀ c ∈ List.replicate 4301 '0', c.isDigit := by
    intro c mem
    rw [List.eq_of_mem_replicate mem]
    rfl
  have many : 4300 < (List.replicate 4301 '0').length := by
    rw [List.length_replicate]
    decide
  let n : Numeral := ⟨.absent, List.replicate 4301 '0', List.ne_nil_of_length_pos (by omega), zeros⟩
  have sound : (Term.node "Nope" (.cons (.literal (String.ofList n.chars)) .nil)).Sound := by
    refine .node (by decide) ?_
    rintro u (_ | ⟨_, ⟨⟩⟩)
    exact .literal n
  have letters (n : Numeral) : (String.ofList ("Nope<".toList ++ n.chars ++ ['>'])).toList =
      (Term.node "Nope" (.cons (.literal (String.ofList n.chars)) .nil)).words.flatMap
        fun w => w.text.toList := by
    simp [Term.words, Args.words, Word.node, Word.name, Word.less, Word.more]
  have read := sound.read (letters n)
  have unknown : Symbol.ofName? "Nope" = none := by decide
  refine ⟨_, read, ⟨[], _, rfl, .unknown rfl unknown⟩, ?_⟩
  rintro ⟨fault, reported, p, s, -, -, -, reports⟩
  have built : (Term.node "Nope" (.cons (.literal (String.ofList n.chars)) .nil)).build 0 =
      .error ⟨1, .numeral (.tooLong n.digits.length)⟩ := by
    rw [Term.build, Args.build, Args.build, Term.build, Operand.ofLiteral_chars, if_pos many]
    rfl
  cases (Chain.ofText_of_build read built).symm.trans reported
  exact s.not_reports_numeral _ ((reports _).mpr rfl)

end TapeChain
