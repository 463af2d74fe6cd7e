import HybridChain.Lib.Cells
import HybridChain.Lib.KeyedLog
import HybridChain.Lib.Run

/-!
# Heartbeats of validators

`validator_protocol.go`: every half minute validators whose last heartbeat is more than 90 seconds
old are marked as inactive, and removed the third time.

The order in which the map of heartbeats is enumerated is an argument of the check.
`HandleHeartbeat` reads the clock more than once. What is broadcast is left out.

## Main definitions

* `handleHeartbeat`, `checkValidatorHeartbeats`
* `Cell`, `Tracked`: one address, and what is known of it

## Main results

* `run_consistent`: liveness is tracked consistently
-/

namespace HybridChain

open List
open KeyedLog (Store ListsKeys)

/-- `ValidatorTimeoutDuration`: 90 seconds, in nanoseconds. -/
def validatorTimeoutDuration : ℤ := 90 * 10 ^ 9

structure ValidatorState where
  address : String
  lastSeen : ℤ
  isActive : Bool
  heartbeats : UInt64
  timeouts : UInt64

/-- `ValidatorProtocol`: the validators, and their last heartbeats. -/
structure ValidatorProtocol where
  validators : Store String ValidatorState := ∅
  heartbeats : Store String ℤ := ∅

namespace ValidatorProtocol

/-- `HandleHeartbeat`. The clock is read at `now` and again at `later`. -/
def handleHeartbeat (vp : ValidatorProtocol) (validatorAddr : String) (now later : ℤ) :
    ValidatorProtocol :=
  let heartbeats := vp.heartbeats.insert validatorAddr now
  match vp.validators.lookup validatorAddr with
  | some state =>
    let state :=
      { state with lastSeen := later, heartbeats := state.heartbeats + 1, isActive := true }
    { validators := vp.validators.insert validatorAddr state, heartbeats := heartbeats }
  | none =>
    let state : ValidatorState :=
      { address := validatorAddr, lastSeen := later, isActive := true, heartbeats := 1,
        timeouts := 0 }
    { validators := vp.validators.insert validatorAddr state, heartbeats := heartbeats }

def handleValidatorTimeout (vp : ValidatorProtocol) (addr : String) : ValidatorProtocol :=
  match vp.validators.lookup addr with
  | none => vp
  | some state =>
    let state := { state with isActive := false, timeouts := state.timeouts + 1 }
    if state.timeouts ≥ 3 then
      { validators := vp.validators.erase addr, heartbeats := vp.heartbeats.erase addr }
    else { vp with validators := vp.validators.insert addr state }

/-- One turn of the loop of `checkValidatorHeartbeats`. -/
def checkHeartbeat (now : ℤ) (vp : ValidatorProtocol) (addr : String) : ValidatorProtocol :=
  match vp.heartbeats.lookup addr with
  | none => vp
  | some lastBeat =>
    if now - lastBeat > validatorTimeoutDuration then vp.handleValidatorTimeout addr else vp

def checkValidatorHeartbeats (vp : ValidatorProtocol) (order : List String) (now : ℤ) :
    ValidatorProtocol :=
  order.foldl (checkHeartbeat now) vp

def removeValidator (vp : ValidatorProtocol) (addr : String) : ValidatorProtocol where
  validators := vp.validators.erase addr
  heartbeats := vp.heartbeats.erase addr

def isValidatorActive (vp : ValidatorProtocol) (addr : String) : Bool :=
  match vp.validators.lookup addr with
  | some state => state.isActive
  | none => false

/-- `GetActiveValidators`. `order` is the order in which the map of validators is enumerated. -/
def getActiveValidators (vp : ValidatorProtocol) (order : List String) : List String :=
  ((KeyedLog.inOrder order vp.validators).filter fun e => e.2.isActive).map Prod.fst

/-! ## Runs -/

inductive Action where
  | heartbeat (validatorAddr : String) (later : ℤ)
  | check (order : List String)
  | remove (addr : String)

structure Call where
  now : ℤ
  action : Action

def step (vp : ValidatorProtocol) (call : Call) : ValidatorProtocol :=
  match call.action with
  | .heartbeat validatorAddr later => vp.handleHeartbeat validatorAddr call.now later
  | .check order => vp.checkValidatorHeartbeats order call.now
  | .remove addr => vp.removeValidator addr

/-- The loop of a check goes through the map of heartbeats. -/
def Call.Valid (vp : ValidatorProtocol) (call : Call) : Prop :=
  ∀ order, call.action = .check order → ListsKeys order vp.heartbeats

/-! ## One address -/

abbrev Cell := Option ValidatorState × Option ℤ

def cell (vp : ValidatorProtocol) (addr : String) : Cell :=
  (vp.validators.lookup addr, vp.heartbeats.lookup addr)

/-- A heartbeat, for the address it is from. -/
def Cell.beat (addr : String) (now later : ℤ) (c : Cell) : Cell := (some (match c.1 with
    | some state =>
      { state with lastSeen := later, heartbeats := state.heartbeats + 1, isActive := true }
    | none =>
      { address := addr, lastSeen := later, isActive := true, heartbeats := 1, timeouts := 0 }),
    some now)

/-- A check, for an address that it comes to. -/
def Cell.check (now : ℤ) (c : Cell) : Cell :=
  match c with
  | (some state, some lastBeat) =>
    if now - lastBeat > validatorTimeoutDuration then
      if state.timeouts + 1 ≥ 3 then (none, none)
      else (some { state with isActive := false, timeouts := state.timeouts + 1 }, some lastBeat)
    else (some state, some lastBeat)
  | c => c

lemma cell_handleHeartbeat (vp : ValidatorProtocol) (addr other : String) (now later : ℤ) :
    (vp.handleHeartbeat addr now later).cell other =
      if addr = other then (vp.cell other).beat other now later else vp.cell other := by
  unfold handleHeartbeat cell
  by_cases heq : addr = other
  · subst heq
    cases hstate : vp.validators.lookup addr <;> simp [Cell.beat]
  · cases hstate : vp.validators.lookup addr <;> simp [KeyedLog.lookup_insert_eq, heq]

lemma cell_removeValidator (vp : ValidatorProtocol) (addr other : String) :
    (vp.removeValidator addr).cell other =
      if addr = other then (none, none) else vp.cell other := by
  unfold removeValidator cell
  by_cases heq : addr = other
  · subst heq
    simp
  · simp [heq, Finmap.lookup_erase_ne (Ne.symm heq)]

lemma local_checkHeartbeat (now : ℤ) :
    Cells.Local cell (checkHeartbeat now) fun _ c => c.check now := by
  intro vp addr other
  unfold checkHeartbeat cell
  by_cases heq : addr = other
  · subst heq
    cases hbeat : vp.heartbeats.lookup addr with
    | none => cases hstate : vp.validators.lookup addr <;> simp [Cell.check, hbeat]
    | some lastBeat =>
      cases hstate : vp.validators.lookup addr with
      | none => simp [handleValidatorTimeout, Cell.check, hbeat, hstate]
      | some state =>
        simp only [handleValidatorTimeout, Cell.check, hstate, if_true]
        split_ifs <;> simp [hbeat, hstate]
  · rw [if_neg heq]
    cases hbeat : vp.heartbeats.lookup addr with
    | none => rfl
    | some lastBeat =>
      simp only [handleValidatorTimeout]
      split_ifs
      · cases hstate : vp.validators.lookup addr with
        | none => rfl
        | some state =>
          simp only []
          split_ifs <;> simp [Finmap.lookup_erase_ne (Ne.symm heq), KeyedLog.lookup_insert_eq, heq]
      · rfl

variable {vp : ValidatorProtocol} {order : List String}

lemma cell_checkValidatorHeartbeats (h : ListsKeys order vp.heartbeats) (now : ℤ) (addr : String) :
    (vp.checkValidatorHeartbeats order now).cell addr = (vp.cell addr).check now := by
  rw [checkValidatorHeartbeats, (local_checkHeartbeat now).view_foldl h.1]
  split_ifs with hmem
  · rfl
  · -- there is no heartbeat, so there is nothing to check
    rw [h.mem_iff, ← Finmap.lookup_eq_none] at hmem
    rw [cell, hmem]
    cases vp.validators.lookup addr <;> rfl

/-! ## What the maps have in common -/

/-- What is known of an address when the clock shows `clock`: it is in both maps or in none; it has
fewer than three timeouts; and it has been marked as inactive only if its last heartbeat is too
old. -/
inductive Tracked (clock : ℤ) : Cell → Prop
  | absent : Tracked clock (none, none)
  | present {state : ValidatorState} {lastBeat : ℤ} (htimeouts : state.timeouts < 3)
      (hinactive : state.isActive = false → validatorTimeoutDuration < clock - lastBeat) :
    Tracked clock (some state, some lastBeat)

variable {clock now : ℤ} {c : Cell}

lemma Tracked.mono (h : Tracked clock c) (hle : clock ≤ now) : Tracked now c := by
  cases h with
  | absent => exact .absent
  | present htimeouts hinactive =>
    refine .present htimeouts fun hfalse => ?_
    have hold := hinactive hfalse
    linarith

lemma Tracked.isSome_iff (h : Tracked clock c) : c.1.isSome ↔ c.2.isSome := by
  cases h <;> rfl

variable {state : ValidatorState} {calls : List Call}

lemma Tracked.timeouts_lt (h : Tracked clock c) (hc : c.1 = some state) : state.timeouts < 3 := by
  cases h with
  | absent => cases hc
  | present htimeouts hinactive => exact Option.some.inj hc ▸ htimeouts

lemma Tracked.beat (h : Tracked clock c) (addr : String) (later : ℤ) :
    Tracked now (c.beat addr now later) := by
  cases h with
  | absent => exact .present (by simp) (by simp)
  | present htimeouts hinactive => exact .present htimeouts (by simp)

lemma Tracked.check (h : Tracked now c) : Tracked now (c.check now) := by
  cases h with
  | absent => exact .absent
  | @present state lastBeat htimeouts hinactive =>
    rw [Cell.check]
    split_ifs with hold hthird
    · exact .absent
    · exact .present (UInt64.not_le.mp hthird) fun _ => hold
    · exact .present htimeouts hinactive

/-- **After a check, the active validators are those with a recent heartbeat**: an old heartbeat is
found by the check, and a mark from an earlier check means that the heartbeat was too old then. -/
lemma Tracked.isActive_check (h : Tracked now c) {lastBeat : ℤ}
    (hc : c.check now = (some state, some lastBeat)) :
    state.isActive = true ↔ now - lastBeat ≤ validatorTimeoutDuration := by
  cases h with
  | absent => cases hc
  | @present before beat htimeouts hinactive =>
    rw [Cell.check] at hc
    split_ifs at hc with hold hthird
    · cases hc
    · obtain ⟨rfl, rfl⟩ := by simpa using hc
      simp [not_le.mpr hold]
    · obtain ⟨rfl, rfl⟩ := by simpa using hc
      refine ⟨fun _ => not_lt.mp hold, fun _ => ?_⟩
      by_contra hfalse
      exact hold (hinactive (Bool.not_eq_true _ ▸ hfalse))

/-- **One call** keeps what is known of every address. -/
lemma Tracked.step {call : Call} (h : ∀ addr, Tracked clock (vp.cell addr))
    (hvalid : call.Valid vp) (hle : clock ≤ call.now) (addr : String) :
    Tracked call.now ((vp.step call).cell addr) := by
  have hnow := (h addr).mono hle
  obtain ⟨now, action⟩ := call
  cases action with
  | heartbeat sender later =>
    rw [ValidatorProtocol.step, cell_handleHeartbeat]
    split_ifs
    · exact hnow.beat addr later
    · exact hnow
  | check order =>
    rw [ValidatorProtocol.step, cell_checkValidatorHeartbeats (hvalid order rfl)]
    exact hnow.check
  | remove removed =>
    rw [ValidatorProtocol.step, cell_removeValidator]
    split_ifs
    · exact .absent
    · exact hnow

/-- **A run** keeps what is known of every address, if time does not go back. -/
lemma Tracked.run (h : ∀ addr, Tracked clock (vp.cell addr))
    (hvalid : Run.Along ValidatorProtocol.step Call.Valid vp calls)
    (hlater : ∀ call ∈ calls, clock ≤ call.now ∧ call.now ≤ now)
    (htimes : calls.Pairwise fun a b => a.now ≤ b.now) (hclock : clock ≤ now) (addr : String) :
    Tracked now ((calls.foldl ValidatorProtocol.step vp).cell addr) := by
  induction calls generalizing vp clock with
  | nil => exact (h addr).mono hclock
  | cons call calls ih =>
    rw [pairwise_cons] at htimes
    rw [forall_mem_cons] at hlater
    refine ih (Tracked.step h hvalid.1 hlater.1.1) hvalid.2 (fun later hmem => ?_) htimes.2
      hlater.1.2
    exact ⟨htimes.1 later hmem, (hlater.2 later hmem).2⟩

lemma tracked_run (hvalid : Run.Along step Call.Valid {} calls)
    (htimes : calls.Pairwise fun a b => a.now ≤ b.now) (hlast : ∀ call ∈ calls, call.now ≤ now)
    (addr : String) : Tracked now ((calls.foldl step {}).cell addr) := by
  cases calls with
  | nil => exact .absent
  | cons call calls =>
    have hfirst : ∀ later ∈ call :: calls, call.now ≤ later.now :=
      forall_mem_cons.mpr ⟨le_rfl, (pairwise_cons.mp htimes).1⟩
    exact Tracked.run (fun _ => .absent) hvalid
      (fun later hmem => ⟨hfirst later hmem, hlast later hmem⟩) htimes (hlast call (by simp)) addr

lemma isValidatorActive_iff {addr : String} : vp.isValidatorActive addr = true ↔
      ∃ state, vp.validators.lookup addr = some state ∧ state.isActive = true := by
  rw [isValidatorActive]
  cases vp.validators.lookup addr <;> simp

lemma mem_getActiveValidators (h : ListsKeys order vp.validators) {addr : String} :
    addr ∈ vp.getActiveValidators order ↔ vp.isValidatorActive addr = true := by
  rw [getActiveValidators, mem_map, isValidatorActive_iff]
  constructor
  · rintro ⟨⟨key, state⟩, hmem, rfl⟩
    obtain ⟨hentry, hactive⟩ := mem_filter.mp hmem
    exact ⟨state, (KeyedLog.mem_inOrder.mp hentry).2, hactive⟩
  · rintro ⟨state, hstate, hactive⟩
    have hkey : addr ∈ order := h.mem_iff.mpr (Finmap.mem_of_lookup_eq_some hstate)
    exact ⟨(addr, state), mem_filter.mpr ⟨KeyedLog.mem_inOrder.mpr ⟨hkey, hstate⟩, hactive⟩, rfl⟩

/-- **Right after a check**, the validators that are reported as active are those with a recent
heartbeat. -/
lemma isValidatorActive_check
    (htracked : ∀ addr, Tracked now (vp.cell addr)) (horder : ListsKeys order vp.heartbeats)
    (addr : String) : (vp.checkValidatorHeartbeats order now).isValidatorActive addr = true ↔
      ∃ lastBeat, (vp.checkValidatorHeartbeats order now).heartbeats.lookup addr = some lastBeat ∧
        now - lastBeat ≤ validatorTimeoutDuration := by
  have hcell := cell_checkValidatorHeartbeats horder now addr
  have hboth := (htracked addr).check.isSome_iff
  rw [← hcell, cell] at hboth
  dsimp only at hboth
  rw [isValidatorActive_iff]
  constructor
  · rintro ⟨state, hstate, hactive⟩
    obtain ⟨lastBeat, hbeat⟩ := Option.isSome_iff_exists.mp (hboth.mp (by rw [hstate]; rfl))
    refine ⟨lastBeat, hbeat, ((htracked addr).isActive_check ?_).mp hactive⟩
    rw [← hcell, cell, hstate, hbeat]
  · rintro ⟨lastBeat, hbeat, hrecent⟩
    obtain ⟨state, hstate⟩ := Option.isSome_iff_exists.mp (hboth.mpr (by rw [hbeat]; rfl))
    refine ⟨state, hstate, ((htracked addr).isActive_check ?_).mpr hrecent⟩
    rw [← hcell, cell, hstate, hbeat]

/-- **Liveness is tracked consistently**: in every run in which time does not go back, the two maps
have the same keys and every validator has fewer than three timeouts; right after a check, the
active ones are those whose last heartbeat is at most 90 seconds old. -/
theorem run_consistent (calls : List Call) (hvalid : Run.Along step Call.Valid {} calls)
    (htimes : calls.Pairwise fun a b => a.now ≤ b.now) :
    (∀ addr, addr ∈ (calls.foldl step {}).validators ↔ addr ∈ (calls.foldl step {}).heartbeats) ∧
    (∀ addr state, (calls.foldl step {}).validators.lookup addr = some state → state.timeouts < 3) ∧
    ∀ before order now, calls = before ++ [⟨now, .check order⟩] →
      ∀ listing, ListsKeys listing (calls.foldl step {}).validators → ∀ addr,
        (addr ∈ (calls.foldl step {}).getActiveValidators listing ↔
          (calls.foldl step {}).isValidatorActive addr = true) ∧
        ((calls.foldl step {}).isValidatorActive addr = true ↔
          ∃ lastBeat, (calls.foldl step {}).heartbeats.lookup addr = some lastBeat ∧
            now - lastBeat ≤ validatorTimeoutDuration) := by
  obtain ⟨last, hlast⟩ := (calls.map Call.now).toFinset.exists_le
  have htracked := tracked_run hvalid htimes fun call hmem =>
    hlast _ (mem_toFinset.mpr (mem_map_of_mem hmem))
  refine ⟨fun addr => ?_, fun addr state hstate => (htracked addr).timeouts_lt hstate, ?_⟩
  · rw [← Finmap.lookup_isSome, ← Finmap.lookup_isSome]
    exact (htracked addr).isSome_iff
  · rintro before order now rfl listing hlisting addr
    obtain ⟨hbefore, hcheck, -⟩ := Run.along_append.mp hvalid
    obtain ⟨htimes, -, hlater⟩ := pairwise_append.mp htimes
    have hnow := tracked_run hbefore htimes fun call hmem =>
      hlater call hmem _ mem_cons_self
    refine ⟨mem_getActiveValidators hlisting, ?_⟩
    rw [foldl_append]
    exact isValidatorActive_check hnow (hcheck order rfl) addr

def silentValidator : List Call :=
  [⟨0, .heartbeat "v" 1⟩, ⟨5, .heartbeat "w" 5⟩, ⟨60 * 10 ^ 9, .heartbeat "w" 0⟩,
    ⟨100 * 10 ^ 9, .check ["w", "v"]⟩]

theorem run_consistent_silentValidator :
    ListsKeys ["v", "w"] (silentValidator.foldl step {}).validators ∧
      ("w" ∈ (silentValidator.foldl step {}).getActiveValidators ["v", "w"]) ∧
      ("v" ∉ (silentValidator.foldl step {}).getActiveValidators ["v", "w"]) := by
  have hvalid : Run.Along step Call.Valid {} silentValidator := by
    refine ⟨?_, ?_, ?_, ?_, trivial⟩ <;> intro order horder <;> cases horder
    decide +kernel
  have hlisting : ListsKeys ["v", "w"] (silentValidator.foldl step {}).validators := by
    decide +kernel
  obtain ⟨-, -, hactive⟩ := run_consistent silentValidator hvalid (by decide)
  have hactive := hactive (silentValidator.take 3) ["w", "v"] (100 * 10 ^ 9) rfl ["v", "w"] hlisting
  refine ⟨hlisting, (hactive "w").1.mpr ((hactive "w").2.mpr ?_), ?_⟩
  · exact ⟨60 * 10 ^ 9, by decide +kernel, by decide⟩
  rw [(hactive "v").1, (hactive "v").2]
  rintro ⟨lastBeat, hbeat, hrecent⟩
  have hzero : (silentValidator.foldl step {}).heartbeats.lookup "v" = some 0 := by decide +kernel
  obtain rfl : 0 = lastBeat := Option.some.inj (hzero.symm.trans hbeat)
  exact absurd hrecent (by decide)

end ValidatorProtocol

end HybridChain
