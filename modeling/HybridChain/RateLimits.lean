import HybridChain.Lib.KeyedLog
import HybridChain.Lib.WindowCounter

/-!
# Rate limits of a bootstrap node

`enforceRateLimits` of `bootnode.go`: a peer may send a hundred messages a minute, counted from the
first message that comes more than a minute after the last reset.

The limits on connections and the type of a message are left out: the function does not read them. A
difference of times that does not fit into 64 bits is cut off, which makes no difference here.

## Main definitions

* `enforceRateLimits`, `log`

## Main results

* `log_bounded`: only full counts refuse, and a minute has at most two of them
-/

namespace HybridChain

open List
open KeyedLog (Store)
open WindowCounter (Counter Verdict acceptedWithin arrive verdicts)

/-- The number of messages of a peer, and since when they are counted. -/
structure MessageLimits where
  count : UInt64
  lastReset : ℤ

structure RateLimiter where
  messageLimits : Store String MessageLimits := ∅

/-- `resetInterval`: a minute, in nanoseconds. -/
def resetInterval : ℤ := 60 * 10 ^ 9

/-- A message: the peer it is from, and when it comes in. -/
structure TimedMessage where
  peerID : String
  now : ℤ

namespace RateLimiter

/-- `enforceRateLimits`. The limits of a peer are copied out of the map; a refusal writes nothing
back. -/
def enforceRateLimits (rl : RateLimiter) (peerID : String) (now : ℤ) :
    RateLimiter × Except String Unit :=
  match rl.messageLimits.lookup peerID with
  | some limits =>
    let limits : MessageLimits :=
      if now - limits.lastReset > resetInterval then { count := 0, lastReset := now } else limits
    if limits.count ≥ 100 then
      (rl, .error s!"message rate limit exceeded for peer {peerID}")
    else
      let limits := { limits with count := limits.count + 1 }
      ({ rl with messageLimits := rl.messageLimits.insert peerID limits }, .ok ())
  | none =>
    let limits : MessageLimits := { count := 1, lastReset := now }
    ({ rl with messageLimits := rl.messageLimits.insert peerID limits }, .ok ())

/-- A message resets the count of its peer. -/
def resets (rl : RateLimiter) (message : TimedMessage) : Bool :=
  match rl.messageLimits.lookup message.peerID with
  | some limits => message.now - limits.lastReset > resetInterval
  | none => true

/-- What happens to a message: it is refused, or it is accepted, with or without a reset. -/
def verdict (rl : RateLimiter) (message : TimedMessage) : Verdict :=
  match (rl.enforceRateLimits message.peerID message.now).2 with
  | .error _ => .refused
  | .ok _ => if rl.resets message then .started else .counted

/-- The messages that come in, with what happens to them. -/
def log : RateLimiter → List TimedMessage → List (TimedMessage × Verdict)
  | _, [] => []
  | rl, message :: messages =>
    (message, rl.verdict message) ::
      log (rl.enforceRateLimits message.peerID message.now).1 messages

/-- The number of messages of a peer that were accepted since its last reset. -/
def acceptedSinceReset (peerID : String) (entries : List (TimedMessage × Verdict)) : ℕ :=
  WindowCounter.sinceStart ((entries.filter fun e => e.1.peerID = peerID).map Prod.snd)

/-- The number of messages of a peer that were accepted at times in a closed interval. -/
def acceptedBetween (peerID : String) (first last : ℤ) (entries : List (TimedMessage × Verdict)) :
    ℕ :=
  entries.countP fun e =>
    e.1.peerID = peerID ∧ e.2.accepted ∧ first ≤ e.1.now ∧ e.1.now ≤ last

/-! ## One counter for each peer -/

def counter (rl : RateLimiter) (peerID : String) : Option (Counter ℤ) :=
  (rl.messageLimits.lookup peerID).map fun limits => ⟨limits.count.toNat, limits.lastReset⟩

variable (rl : RateLimiter) (messages : List TimedMessage) (peerID : String)

/-- **A message is an arrival at the counter of its peer.** -/
lemma enforceRateLimits_self (message : TimedMessage) :
    ((rl.enforceRateLimits message.peerID message.now).1.counter message.peerID,
      rl.verdict message) =
      arrive 100 resetInterval (rl.counter message.peerID) message.now := by
  unfold verdict resets counter enforceRateLimits
  cases hlookup : rl.messageLimits.lookup message.peerID with
  | none =>
    simp only [Finmap.lookup_insert]
    rfl
  | some limits =>
    simp only [Option.map_some, arrive]
    by_cases hreset : resetInterval < message.now - limits.lastReset
    · have hzero : ¬ (0 : UInt64) ≥ 100 := by decide
      simp only [gt_iff_lt, hreset, if_true, hzero, if_false, Finmap.lookup_insert,
        Option.map_some, decide_true]
      rfl
    · by_cases hfull : limits.count ≥ 100
      · have hfull' : 100 ≤ limits.count.toNat := UInt64.le_iff_toNat_le.mp hfull
        simp only [gt_iff_lt, hreset, if_false, hfull, if_true, hlookup, Option.map_some, hfull']
      · have hfull' : limits.count.toNat < 100 := by
          rw [ge_iff_le, UInt64.le_iff_toNat_le, not_le] at hfull
          exact hfull
        have hnext : (limits.count + 1).toNat = limits.count.toNat + 1 := by
          have hone : (1 : UInt64).toNat = 1 := rfl
          rw [UInt64.toNat_add, hone, Nat.mod_eq_of_lt (by omega)]
        simp only [gt_iff_lt, hreset, if_false, hfull, Finmap.lookup_insert, Option.map_some,
          hnext, not_le.mpr hfull', decide_false, Bool.false_eq_true]

lemma counter_enforceRateLimits_of_ne {peerID other : String} (h : other ≠ peerID) (now : ℤ) :
    (rl.enforceRateLimits peerID now).1.counter other = rl.counter other := by
  unfold enforceRateLimits
  cases rl.messageLimits.lookup peerID with
  | none => simp only [counter, Finmap.lookup_insert_of_ne _ h]
  | some limits =>
    dsimp only
    split_ifs <;> simp only [counter, Finmap.lookup_insert_of_ne _ h]

/-- **Each peer has a counter of its own**: its messages are judged as if there were no others. -/
lemma filter_log :
    ((rl.log messages).filter fun e => e.1.peerID = peerID).map (fun e => (e.1.now, e.2)) =
      verdicts 100 resetInterval (rl.counter peerID)
        ((messages.filter fun m => m.peerID = peerID).map TimedMessage.now) := by
  induction messages generalizing rl with
  | nil => rfl
  | cons message messages ih =>
    rw [log]
    by_cases hpeer : message.peerID = peerID
    · subst hpeer
      have hstep := rl.enforceRateLimits_self message
      rw [filter_cons_of_pos (by simp), filter_cons_of_pos (by simp), map_cons,
        map_cons, verdicts, ih, ← hstep]
    · rw [filter_cons_of_neg (by simpa using hpeer), filter_cons_of_neg (by simpa using hpeer), ih,
        counter_enforceRateLimits_of_ne _ (Ne.symm hpeer)]

/-! ## What a peer can send -/

lemma acceptedBetween_eq (first last : ℤ) : acceptedBetween peerID first last (rl.log messages) =
      acceptedWithin first last (verdicts 100 resetInterval (rl.counter peerID)
          ((messages.filter fun m => m.peerID = peerID).map TimedMessage.now)) := by
  rw [← filter_log, acceptedWithin, countP_map, countP_filter, acceptedBetween]
  refine countP_congr fun e _ => ?_
  simp [and_assoc, and_comm]

/-- A message is refused only if a hundred messages of its peer were accepted since its last
reset. -/
lemma le_acceptedSinceReset_of_refused {messages : List TimedMessage}
    {before rest : List (TimedMessage × Verdict)} {message : TimedMessage}
    (h : log {} messages = before ++ (message, .refused) :: rest) :
    100 ≤ acceptedSinceReset message.peerID before := by
  have hfilter := filter_log {} messages message.peerID
  rw [h, filter_append, filter_cons_of_pos (by simp), map_append, map_cons] at hfilter
  have hlimit := WindowCounter.limit_le_sinceStart_of_refused hfilter.symm
  rwa [map_map] at hlimit

/-- **The rate of messages is bounded**: of the messages of a peer that come in within a minute, at
most two hundred are accepted; and no message is refused whose peer had fewer than a hundred
accepted since its last reset. -/
theorem log_bounded (messages : List TimedMessage)
    (hsorted : messages.Pairwise fun m m' => m.now ≤ m'.now) (peerID : String) :
    (∀ first, acceptedBetween peerID first (first + resetInterval) (log {} messages) ≤ 200) ∧
      ∀ before message verdict rest, log {} messages = before ++ (message, verdict) :: rest →
        message.peerID = peerID → acceptedSinceReset peerID before < 100 →
          verdict.accepted = true := by
  constructor
  · intro first
    rw [acceptedBetween_eq]
    have htimes : ((messages.filter fun m => m.peerID = peerID).map TimedMessage.now).Pairwise
        (· ≤ ·) := pairwise_map.mpr (hsorted.filter _)
    exact WindowCounter.acceptedWithin_le (by decide) htimes first
  · rintro before message verdict rest h rfl hfew
    cases verdict with
    | started | counted => rfl
    | refused => exact absurd (le_acceptedSinceReset_of_refused h) (not_le.mpr hfew)

theorem log_bounded_three :
    acceptedBetween "p" 0 resetInterval (log {} [⟨"p", 0⟩, ⟨"q", 5⟩, ⟨"p", resetInterval⟩]) = 2 ∧
      acceptedBetween "p" 0 resetInterval
        (log {} [⟨"p", 0⟩, ⟨"q", 5⟩, ⟨"p", resetInterval⟩]) ≤ 200 :=
  ⟨by decide +kernel, (log_bounded [⟨"p", 0⟩, ⟨"q", 5⟩, ⟨"p", resetInterval⟩] (by decide) "p").1 0⟩

end RateLimiter

end HybridChain
