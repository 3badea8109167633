import TrustSimplex.Search.Iterate

/-!
# Runs

A run evaluates the vertices of its first simplex, goes from phase to phase, and ends with the pole
as its solution. `Search.minimizeWithin` bounds the phases, and the passes inside each, by fuel:
`none` says that it ran out, and `Search.minimizeWithin_of_le` that more fuel changes no answer.
-/

namespace TrustSimplex

structure Run (α I O ε σ : Type) (n m : Nat) where
  phase : Phase α ε n
  state : State α I O σ n m

structure Outcome (α I O ε σ : Type) (n : Nat) where
  result : Except (Failure α ε n) (Solution α I O n)
  ledger : Ledger α I O σ n

namespace Search

section
variable {α I O ε σ : Type} [Scalar α] {n m : Nat}

/-! ## The first simplex -/

def build (q : Search α I O ε σ n m) (s : State α I O σ n m) : Nat → Run α I O ε σ n m
  | 0 => ⟨.selectBest, s⟩
  | count + 1 =>
    match q.probe s.ledger s.simplex.nextInitial .initial with
    | (.error cause, ledger) => ⟨.failed cause, { s with ledger }⟩
    | (.ok (sample, answer), ledger) =>
      let s := { s with ledger, simplex := s.simplex.extend sample }
      match answer with
      | some .stopEarly => ⟨.finish .stoppedByObserver, s⟩
      | none => q.build s count

def firstState (q : Search α I O ε σ n m) (x : Vector α n) (first : Sample α (Snapshot I O) m)
    (ledger : Ledger α I O σ n) : State α I O σ n m where
  ledger := ledger
  simplex := .start x q.config.startRadius first
  radius := q.config.startRadius
  penalty := 0
  repairArmed := false
  acceptable := true

/-- Evaluates the vertices of the first simplex, the first of them at `x`. A run that fails before
it has a simplex is over. -/
def start (q : Search α I O ε σ n m) (x : Vector α n) (memory : σ) :
    Except (Outcome α I O ε σ n) (Run α I O ε σ n m) :=
  match q.config.validateFor n with
  | .error cause => .error ⟨.error (.invalidConfig cause), .start memory⟩
  | .ok () =>
    match q.probe (.start memory) x .initial with
    | (.error cause, ledger) => .error ⟨.error cause, ledger⟩
    | (.ok (first, some .stopEarly), ledger) =>
      .ok ⟨.finish .stoppedByObserver, q.firstState x first ledger⟩
    | (.ok (first, none), ledger) => .ok (q.build (q.firstState x first ledger) n)

/-! ## From phase to phase -/

def advance (q : Search α I O ε σ n m) (r : Run α I O ε σ n m) (fuel : Nat) : Run α I O ε σ n m :=
  match r.phase with
  | .selectBest => let (phase, state) := q.iterate r.state fuel; ⟨phase, state⟩
  | .shrinkRadius => let (phase, state) := q.shrink r.state; ⟨phase, state⟩
  | _ => r

def follow (q : Search α I O ε σ n m) (fuel : Nat) (r : Run α I O ε σ n m) : Nat → Run α I O ε σ n m
  | 0 => r
  | count + 1 => if r.phase.isActive then q.follow fuel (q.advance r fuel) count else r

/-! ## The end -/

/-- Announces the end and takes the pole for the solution; nothing is left to stop. -/
def finish (q : Search α I O ε σ n m) (s : State α I O σ n m) (status : Status) :
    Solution α I O n × Ledger α I O σ n :=
  let best := s.simplex.best
  let (_, ledger) := s.ledger.announce q.observer (.finished status s.ledger.evals best)
  (⟨status, best, s.simplex.poleSample.snapshot, s.ledger.evals, s.radius⟩, ledger)

def outcome? (q : Search α I O ε σ n m) (r : Run α I O ε σ n m) : Option (Outcome α I O ε σ n) :=
  match r.phase with
  | .finish status =>
    let (solution, ledger) := q.finish r.state status
    some ⟨.ok solution, ledger⟩
  | .failed cause => some ⟨.error cause, r.state.ledger⟩
  | _ => none

/-! ## Minimizing -/

def minimizeWithin (q : Search α I O ε σ n m) (x : Vector α n) (memory : σ) (fuel : Nat) :
    Option (Outcome α I O ε σ n) :=
  match q.start x memory with
  | .error outcome => some outcome
  | .ok r => q.outcome? (q.follow fuel r fuel)

/-! ## More fuel -/

theorem findStep_of_le (q : Search α I O ε σ n m) (s : State α I O σ n m) (g : Geometry α n)
    (L : Linearization α n m) {fuel more : Nat} (h : fuel ≤ more)
    (hs : (q.findStep s g L fuel).1 ≠ .unresolved) :
    q.findStep s g L more = q.findStep s g L fuel := by
  unfold findStep at hs ⊢
  cases hL : L.solveWithin s.radius fuel with
  | none =>
    rw [hL] at hs
    exact absurd rfl hs
  | some step => rw [L.solveWithin_of_le s.radius h hL]

theorem iterate_of_le (q : Search α I O ε σ n m) (s : State α I O σ n m) {fuel more : Nat}
    (h : fuel ≤ more) (hs : (q.iterate s fuel).1 ≠ .unresolved) :
    q.iterate s more = q.iterate s fuel := by
  unfold iterate at hs ⊢
  dsimp only at hs ⊢
  split
  · rfl
  · next herror =>
    rw [if_neg herror] at hs
    split
    · rfl
    · next hrepair =>
      rw [hrepair] at hs
      exact q.findStep_of_le _ _ _ h hs

theorem advance_of_le (q : Search α I O ε σ n m) (r : Run α I O ε σ n m) {fuel more : Nat}
    (h : fuel ≤ more) (hr : (q.advance r fuel).phase ≠ .unresolved) :
    q.advance r more = q.advance r fuel := by
  unfold advance at hr ⊢
  split
  · next hp =>
    rw [hp] at hr
    rw [q.iterate_of_le r.state h hr]
  · rfl
  · rfl

theorem follow_of_inactive (q : Search α I O ε σ n m) (fuel : Nat) {r : Run α I O ε σ n m}
    (h : r.phase.isActive = false) (count : Nat) : q.follow fuel r count = r := by
  cases count with
  | zero => rfl
  | succ count => simp [follow, h]

theorem follow_succ (q : Search α I O ε σ n m) {r : Run α I O ε σ n m} (h : r.phase.isActive = true)
    (fuel count : Nat) : q.follow fuel r (count + 1) = q.follow fuel (q.advance r fuel) count := by
  rw [follow, if_pos h]

theorem resolved_of_follow (q : Search α I O ε σ n m) {fuel count : Nat} {r : Run α I O ε σ n m}
    (h : (q.follow fuel r count).phase ≠ .unresolved) : r.phase ≠ .unresolved := by
  intro hp
  rw [q.follow_of_inactive fuel (by rw [hp]; rfl)] at h
  exact h hp

theorem follow_add (q : Search α I O ε σ n m) (fuel : Nat) (r : Run α I O ε σ n m) (count further : Nat) :
    q.follow fuel r (count + further) = q.follow fuel (q.follow fuel r count) further := by
  induction count generalizing r with
  | zero => rw [Nat.zero_add, follow]
  | succ count ih =>
    cases ha : r.phase.isActive with
    | false => rw [q.follow_of_inactive fuel ha, q.follow_of_inactive fuel ha, q.follow_of_inactive fuel ha]
    | true =>
      rw [Nat.add_right_comm, q.follow_succ ha, q.follow_succ ha]
      exact ih _

theorem follow_of_le (q : Search α I O ε σ n m) {fuel more : Nat} (h : fuel ≤ more) {count : Nat}
    {r : Run α I O ε σ n m} (hr : (q.follow fuel r count).phase ≠ .unresolved) :
    q.follow more r count = q.follow fuel r count := by
  induction count generalizing r with
  | zero => rfl
  | succ count ih =>
    unfold follow at hr ⊢
    split
    · next ha =>
      rw [if_pos ha] at hr
      rw [q.advance_of_le r h (q.resolved_of_follow hr)]
      exact ih hr
    · rfl

/-- What follows at one fuel what followed at another follows at both. -/
theorem follow_follow (q : Search α I O ε σ n m) {fuel more count further : Nat} {r : Run α I O ε σ n m}
    (hfirst : (q.follow fuel r count).phase ≠ .unresolved)
    (hsecond : (q.follow more (q.follow fuel r count) further).phase ≠ .unresolved) :
    q.follow (max fuel more) r (count + further) = q.follow more (q.follow fuel r count) further := by
  rw [q.follow_add, q.follow_of_le (Nat.le_max_left fuel more) hfirst,
    q.follow_of_le (Nat.le_max_right fuel more) hsecond]

theorem over_of_outcome? (q : Search α I O ε σ n m) {r : Run α I O ε σ n m} {o : Outcome α I O ε σ n}
    (h : q.outcome? r = some o) : r.phase.isActive = false ∧ r.phase ≠ .unresolved := by
  unfold outcome? at h
  split at h
  · next hp => rw [hp]; exact ⟨rfl, nofun⟩
  · next hp => rw [hp]; exact ⟨rfl, nofun⟩
  · cases h

theorem exists_outcome (q : Search α I O ε σ n m) {r : Run α I O ε σ n m} (hover : r.phase.isActive = false)
    (hresolved : r.phase ≠ .unresolved) : ∃ o, q.outcome? r = some o := by
  obtain ⟨phase, s⟩ := r
  cases phase with
  | selectBest => cases hover
  | shrinkRadius => cases hover
  | finish => exact ⟨_, rfl⟩
  | failed => exact ⟨_, rfl⟩
  | unresolved => exact absurd rfl hresolved

theorem outcome?_follow_of_le (q : Search α I O ε σ n m) {fuel more : Nat} (h : fuel ≤ more)
    {count further : Nat} (hc : count ≤ further) {r : Run α I O ε σ n m}
    {o : Outcome α I O ε σ n} (ho : q.outcome? (q.follow fuel r count) = some o) :
    q.outcome? (q.follow more r further) = some o := by
  obtain ⟨hover, hresolved⟩ := q.over_of_outcome? ho
  rw [← Nat.add_sub_cancel' hc, q.follow_add, q.follow_of_le h hresolved, q.follow_of_inactive more hover]
  exact ho

theorem minimizeWithin_of_le (q : Search α I O ε σ n m) (x : Vector α n) (memory : σ)
    {fuel more : Nat} (h : fuel ≤ more) {o : Outcome α I O ε σ n}
    (ho : q.minimizeWithin x memory fuel = some o) : q.minimizeWithin x memory more = some o := by
  unfold minimizeWithin at ho ⊢
  split at ho
  · exact ho
  · exact q.outcome?_follow_of_le h h ho

def fuel (q : Search α I O ε σ n m) : Nat := (3 * n + 4) * (q.config.maxEvals + doubleCount)

def minimize (q : Search α I O ε σ n m) (x : Vector α n) (memory : σ) :
    Option (Outcome α I O ε σ n) :=
  q.minimizeWithin x memory q.fuel

end

end Search

section
variable {α I O ε : Type} [Scalar α] {n m : Nat}

def minimizeUnobserved (model : Model I O ε) (problem : Problem α I O ε n m) (config : Config α)
    (x : Vector α n) : Option (Outcome α I O ε Unit n) :=
  (⟨model, problem, config, .silent⟩ : Search α I O ε Unit n m).minimize x ()

end

end TrustSimplex
