import TapeChain.Machine.Basic

/-! Runs without a bound on their steps. A run ends with at most one outcome, and a ranked match
between two step functions makes their runs end alike: every step of the one is followed by at least
one step of the other, or else lowers a rank, so neither side can go on alone forever. -/
namespace TapeChain

variable {σ τ : Type}

/-- The run from `s` ends with `o`, after however many steps. -/
def Ends (step : σ → Progress σ) (s : σ) (o : Outcome) : Prop :=
  ∃ fuel, runFor step fuel s = some o

/-- Exactly `n` steps lead from one state to another. -/
inductive Steps (step : σ → Progress σ) : Nat → σ → σ → Prop
  | refl (s : σ) : Steps step 0 s s
  | more {n : Nat} {s t u : σ} : step s = .more t → Steps step n t u → Steps step (n + 1) s u

section
variable {step : σ → Progress σ}

theorem runFor_more {s t : σ} (h : step s = .more t) (fuel : Nat) :
    runFor step (fuel + 1) s = runFor step fuel t := by
  simp only [runFor, h]

theorem runFor_ended {s : σ} {o : Outcome} (h : step s = .ended o) (fuel : Nat) :
    runFor step (fuel + 1) s = some o := by
  simp only [runFor, h]

theorem Steps.one {s t : σ} (h : step s = .more t) : Steps step 1 s t := .more h (.refl t)

theorem Steps.two {s t u : σ} (h : step s = .more t) (h' : step t = .more u) : Steps step 2 s u :=
  .more h (.one h')

theorem Steps.trans {n k : Nat} {s t u : σ} (first : Steps step n s t) (rest : Steps step k t u) :
    Steps step (n + k) s u := by
  induction first with
  | refl s => simpa only [Nat.zero_add] using rest
  | more h _ ih => simpa only [Nat.succ_add] using Steps.more h (ih rest)

theorem Steps.runFor {n : Nat} {s t : σ} (path : Steps step n s t) (fuel : Nat) :
    runFor step (n + fuel) s = TapeChain.runFor step fuel t := by
  induction path with
  | refl s => rw [Nat.zero_add]
  | more h _ ih => rw [Nat.succ_add, runFor_more h, ih]

/-- A run that ends has room for every step that is known to be taken. -/
theorem Steps.le_of_runFor {n fuel : Nat} {s t : σ} {o : Outcome} (path : Steps step n s t)
    (h : TapeChain.runFor step fuel s = some o) : n ≤ fuel := by
  induction path generalizing fuel with
  | refl s => exact Nat.zero_le fuel
  | more first _ ih =>
      cases fuel with
      | zero => cases h
      | succ fuel =>
          rw [runFor_more first] at h
          exact Nat.succ_le_succ (ih h)

theorem runFor_mono {fuel more : Nat} {s : σ} {o : Outcome} (hle : fuel ≤ more)
    (h : runFor step fuel s = some o) : runFor step more s = some o := by
  induction fuel generalizing more s with
  | zero => cases h
  | succ fuel ih =>
      obtain ⟨more, rfl⟩ : ∃ k, more = k + 1 := ⟨more - 1, by omega⟩
      cases hs : step s with
      | more t =>
          rw [runFor_more hs] at h ⊢
          exact ih (Nat.le_of_succ_le_succ hle) h
      | ended o' =>
          rw [runFor_ended hs] at h ⊢
          exact h

theorem Ends.of_ended {s : σ} {o : Outcome} (h : step s = .ended o) : Ends step s o :=
  ⟨1, runFor_ended h 0⟩

theorem Ends.unique {s : σ} {o o' : Outcome} (h : Ends step s o) (h' : Ends step s o') : o = o' := by
  obtain ⟨n, hn⟩ := h
  obtain ⟨k, hk⟩ := h'
  have left := runFor_mono (Nat.le_max_left n k) hn
  have right := runFor_mono (Nat.le_max_right n k) hk
  exact Option.some.inj (left.symm.trans right)

/-- A run that ends comes to a state whose step ends it. -/
theorem Ends.last {s : σ} {o : Outcome} (h : Ends step s o) :
    ∃ n t, Steps step n s t ∧ step t = .ended o := by
  obtain ⟨fuel, run⟩ := h
  induction fuel generalizing s with
  | zero => cases run
  | succ fuel ih =>
      cases hs : step s with
      | ended o' =>
          rw [runFor_ended hs, Option.some.injEq] at run
          exact ⟨0, s, .refl s, run ▸ hs⟩
      | more t =>
          rw [runFor_more hs] at run
          obtain ⟨n, u, path, ends⟩ := ih run
          exact ⟨n + 1, u, .more hs path, ends⟩

theorem Steps.ends_iff {n : Nat} {s t : σ} (path : Steps step n s t) {o : Outcome} :
    Ends step s o ↔ Ends step t o := by
  constructor
  · rintro ⟨fuel, h⟩
    obtain ⟨rest, rfl⟩ := Nat.exists_eq_add_of_le (path.le_of_runFor h)
    exact ⟨rest, (path.runFor rest).symm.trans h⟩
  · rintro ⟨fuel, h⟩
    exact ⟨n + fuel, (path.runFor fuel).trans h⟩

/-- What one step gives: a further state with `inv`, or an outcome with `post`. -/
def Progress.Gives (inv : σ → Prop) (post : Outcome → Prop) : Progress σ → Prop
  | .more s => inv s
  | .ended o => post o

/-- What every step keeps holds when the run ends. -/
theorem Ends.of_invariant {inv : σ → Prop} {post : Outcome → Prop}
    (keeps : ∀ s, inv s → (step s).Gives inv post) {s : σ} {o : Outcome} (hs : inv s)
    (ends : Ends step s o) : post o := by
  obtain ⟨fuel, run⟩ := ends
  induction fuel generalizing s with
  | zero => cases run
  | succ fuel ih =>
      have gives := keeps s hs
      cases h : step s with
      | more t =>
          rw [runFor_more h] at run
          rw [h] at gives
          exact ih gives run
      | ended o' =>
          rw [runFor_ended h, Option.some.injEq] at run
          rw [h, run] at gives
          exact gives

/-- It holds in every state on the way, too. -/
theorem Steps.of_invariant {inv : σ → Prop} {post : Outcome → Prop}
    (keeps : ∀ s, inv s → (step s).Gives inv post) {n : Nat} {s t : σ} (path : Steps step n s t)
    (hs : inv s) : inv t := by
  induction path with
  | refl s => exact hs
  | more first _ ih =>
      have gives := keeps _ hs
      rw [first] at gives
      exact ih gives

end

/-- Two steps that both end the run, and alike, or that lead to related states. -/
inductive Alike (related : σ → τ → Prop) : Progress σ → Progress τ → Prop
  | ended (o : Outcome) : Alike related (.ended o) (.ended o)
  | more {s : σ} {t : τ} : related s t → Alike related (.more s) (.more t)

/-- How the left machine, in state `s`, answers what the right machine does in state `t`. A right
step that the left machine sits out must lower the rank. -/
def Answers (left : σ → Progress σ) (related : σ → τ → Prop) (rank : τ → Nat) (s : σ) (t : τ) :
    Progress τ → Prop
  | .ended o => Ends left s o
  | .more t' =>
    (∃ n s', Steps left (n + 1) s s' ∧ related s' t') ∨ (related s t' ∧ rank t' < rank t)

def Follows (left : σ → Progress σ) (right : τ → Progress τ) (related : σ → τ → Prop)
    (rank : τ → Nat) : Prop :=
  ∀ s t, related s t → Answers left related rank s t (right t)

section
variable {left : σ → Progress σ} {right : τ → Progress τ} {related : σ → τ → Prop} {rank : τ → Nat}
  {s s' : σ} {t : τ} {o : Outcome}

theorem Answers.one {p : Progress τ} (h : Alike related (left s) p) :
    Answers left related rank s t p := by
  generalize hs : left s = q at h
  cases h with
  | ended o => exact Ends.of_ended hs
  | more hr => exact .inl ⟨0, _, .one hs, hr⟩

/-- Steps that the left machine takes beforehand belong to its answer. -/
theorem Answers.after {n : Nat} {p : Progress τ} (path : Steps left (n + 1) s s')
    (h : Answers left related rank s' t p) : Answers left related rank s t p := by
  cases p with
  | ended o => exact path.ends_iff.mpr h
  | more t' =>
      rcases h with ⟨k, s'', rest, hr⟩ | ⟨hr, -⟩
      · exact .inl ⟨n + 1 + k, s'', path.trans rest, hr⟩
      · exact .inl ⟨n, s', path, hr⟩

theorem Follows.ends_of_right (h : Follows left right related rank) (hr : related s t)
    (ends : Ends right t o) : Ends left s o := by
  obtain ⟨fuel, run⟩ := ends
  induction fuel generalizing s t with
  | zero => cases run
  | succ fuel ih =>
      have answer := h s t hr
      cases ht : right t with
      | ended o' =>
          rw [runFor_ended ht, Option.some.injEq] at run
          rw [ht, run] at answer
          exact answer
      | more t' =>
          rw [runFor_more ht] at run
          rw [ht] at answer
          rcases answer with ⟨n, s', path, hr'⟩ | ⟨hr', -⟩
          · exact path.ends_iff.mpr (ih hr' run)
          · exact ih hr' run

/-- Wherever the right run comes, the left run comes to a related state. -/
theorem Follows.steps (h : Follows left right related rank) (hr : related s t) {n : Nat} {t' : τ}
    (path : Steps right n t t') : ∃ k s', Steps left k s s' ∧ related s' t' := by
  induction path generalizing s with
  | refl t => exact ⟨0, s, .refl s, hr⟩
  | @more _ t u _ first _ ih =>
      have answer := h s t hr
      rw [first] at answer
      rcases answer with ⟨n, s', path, hr'⟩ | ⟨hr', -⟩
      · obtain ⟨k, s'', rest, last⟩ := ih hr'
        exact ⟨_, s'', path.trans rest, last⟩
      · exact ih hr'

/-- The induction is on the steps that the left run has left, and among equals on the rank. -/
theorem Follows.ends_of_left (h : Follows left right related rank) (hr : related s t)
    (ends : Ends left s o) : Ends right t o := by
  obtain ⟨fuel, run⟩ := ends
  induction fuel using Nat.strongRecOn generalizing s t with
  | ind fuel ihFuel =>
      induction hk : rank t using Nat.strongRecOn generalizing t with
      | ind k ihRank =>
          have answer := h s t hr
          cases ht : right t with
          | ended o' =>
              rw [ht] at answer
              have same : o' = o := Ends.unique answer ⟨fuel, run⟩
              exact same ▸ Ends.of_ended ht
          | more t' =>
              rw [ht] at answer
              rw [(Steps.one ht).ends_iff]
              rcases answer with ⟨n, s', path, hr'⟩ | ⟨hr', lower⟩
              · obtain ⟨rest, rfl⟩ := Nat.exists_eq_add_of_le (path.le_of_runFor run)
                rw [path.runFor rest] at run
                exact ihFuel rest (by omega) hr' run
              · exact ihRank (rank t') (hk ▸ lower) hr' rfl

theorem Follows.ends_iff (h : Follows left right related rank) (hr : related s t) :
    Ends left s o ↔ Ends right t o :=
  ⟨h.ends_of_left hr, h.ends_of_right hr⟩

end

end TapeChain
