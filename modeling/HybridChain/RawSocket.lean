import HybridChain.Lib.BigEndian
import HybridChain.Lib.Run

/-!
# The framed transport

`raw_socket.go` of the sync package: a frame is a header of 28 bytes with the size and a checksum of
the payload, followed by the payload.

The bytes that arrive are a list; a read beyond its end fails. The loop has no end of its own, so
its results hold for every number of turns that is large enough. Deadlines are left out.

## Main definitions

* `sendTransaction`, `receiveLoop`
* `OneByteAltered`

## Main results

* `receiveLoop_delivers`: the transport is faithful
* `receiveLoop_drops_altered`: one altered byte is always found
-/

namespace HybridChain

open List
open BigEndian (encode decode slice length_encode decode_encode slice_piece)

/-! ## Headers -/

def headerSize : ℕ := 28

def maxMessageSize : ℕ := 2 ^ 24

def protocolVersion : UInt32 := 1

def msgTypeTx : UInt32 := 1

structure MessageHeader where
  version : UInt32
  type : UInt32
  payloadSize : UInt32
  timestamp : Int64
  checksum : UInt64
  deriving DecidableEq

/-- `writeHeader`: the bytes of a header. -/
def writeHeader (header : MessageHeader) : List UInt8 :=
  encode 4 header.version.toNat ++ (encode 4 header.type.toNat ++
    (encode 4 header.payloadSize.toNat ++ (encode 8 header.timestamp.toUInt64.toNat ++
      encode 8 header.checksum.toNat)))

/-- `readHeader`: the header in the first 28 bytes of a buffer. -/
def readHeader (buf : List UInt8) : MessageHeader where
  version := UInt32.ofNat (decode (slice buf 0 4))
  type := UInt32.ofNat (decode (slice buf 4 8))
  payloadSize := UInt32.ofNat (decode (slice buf 8 12))
  timestamp := (UInt64.ofNat (decode (slice buf 12 20))).toInt64
  checksum := UInt64.ofNat (decode (slice buf 20 28))

variable (header : MessageHeader)

@[simp] lemma length_writeHeader :
    (writeHeader header).length = headerSize := by
  simp [writeHeader, headerSize]

/-- **A header comes back.** -/
lemma readHeader_writeHeader :
    readHeader (writeHeader header) = header := by
  have hversion : slice (writeHeader header) 0 4 = encode 4 header.version.toNat := by
    rw [writeHeader, ← nil_append (encode 4 header.version.toNat ++ _)]
    exact slice_piece rfl (length_encode 4 _)
  have htype : slice (writeHeader header) 4 8 = encode 4 header.type.toNat := by
    rw [writeHeader]
    exact slice_piece (length_encode 4 _) (length_encode 4 _)
  have hsize : slice (writeHeader header) 8 12 = encode 4 header.payloadSize.toNat := by
    rw [writeHeader, ← append_assoc]
    exact slice_piece (by simp) (length_encode 4 _)
  have htime : slice (writeHeader header) 12 20 = encode 8 header.timestamp.toUInt64.toNat := by
    rw [writeHeader, ← append_assoc, ← append_assoc]
    exact slice_piece (by simp) (length_encode 8 _)
  have hchecksum : slice (writeHeader header) 20 28 = encode 8 header.checksum.toNat := by
    rw [writeHeader, ← append_assoc, ← append_assoc, ← append_assoc,
      ← append_nil (encode 8 header.checksum.toNat)]
    exact slice_piece (by simp) (length_encode 8 _)
  obtain ⟨version, type, payloadSize, timestamp, checksum⟩ := header
  rw [readHeader, hversion, htype, hsize, htime, hchecksum,
    decode_encode version.toNat_lt, decode_encode type.toNat_lt,
    decode_encode payloadSize.toNat_lt, decode_encode timestamp.toUInt64.toNat_lt,
    decode_encode checksum.toNat_lt]
  simp

/-! ## Frames -/

def calculateChecksum (data : List UInt8) : UInt64 :=
  data.foldl (fun hash b => (hash ^^^ b.toUInt64) * 1099511628211) 14695981039346656037

def headerFor (txData : List UInt8) (now : Int64) : MessageHeader where
  version := protocolVersion
  type := msgTypeTx
  payloadSize := UInt32.ofNat txData.length
  timestamp := now
  checksum := calculateChecksum txData

/-- `SendTransaction`: the message that is handed to the sending loop. -/
def sendTransaction (txData : List UInt8) (now : Int64) : Except String (List UInt8) :=
  if txData.length > maxMessageSize then .error "transaction size exceeds maximum allowed size"
  else .ok (writeHeader (headerFor txData now) ++ txData)

/-! ## The receiving loop -/

/-- A socket: the bytes that are still to be read, and the payloads forwarded so far. -/
structure RawSocket where
  incoming : List UInt8
  recvCh : List (List UInt8) := []

/-- `io.ReadFull`: a number of bytes, or nothing if there are not enough, and the bytes left. -/
def readFull (size : ℕ) (incoming : List UInt8) : Option (List UInt8) × List UInt8 :=
  if size ≤ incoming.length then (some (incoming.take size), incoming.drop size) else (none, [])

namespace RawSocket

/-- One turn of `receiveLoop`. -/
def receive (s : RawSocket) : RawSocket :=
  match readFull headerSize s.incoming with
  | (none, rest) => { s with incoming := rest }
  | (some headerBuf, rest) =>
    let header := readHeader headerBuf
    if header.payloadSize.toNat > maxMessageSize then { s with incoming := rest }
    else
      match readFull header.payloadSize.toNat rest with
      | (none, rest) => { s with incoming := rest }
      | (some payload, rest) =>
        if calculateChecksum payload ≠ header.checksum then { s with incoming := rest }
        else { incoming := rest, recvCh := s.recvCh ++ [payload] }

/-- The first turns of `receiveLoop`. -/
def receiveLoop (turns : ℕ) (s : RawSocket) : RawSocket := receive^[turns] s

end RawSocket

lemma readFull_append {as bs : List UInt8} {n : ℕ} (hn : as.length = n) :
    readFull n (as ++ bs) = (some as, bs) := by
  subst hn
  simp [readFull]

variable {received : List (List UInt8)}

namespace RawSocket

/-- **A turn at the beginning of a frame** takes just this frame, and forwards its payload if it has
the checksum that the header says. -/
lemma receive_frame {txData received : List UInt8} (hsize : txData.length ≤ maxMessageSize)
    (hlen : received.length = txData.length) (now : Int64) (rest : List UInt8)
    (recvCh : List (List UInt8)) :
    receive { incoming := writeHeader (headerFor txData now) ++ received ++ rest
              recvCh := recvCh } =
      { incoming := rest
        recvCh := recvCh ++
          if calculateChecksum received = calculateChecksum txData then [received] else [] } := by
  have hfits : (UInt32.ofNat txData.length).toNat = txData.length := by
    rw [UInt32.toNat_ofNat_of_lt']
    have : UInt32.size = 2 ^ 32 := rfl
    have : maxMessageSize = 2 ^ 24 := rfl
    omega
  have hread : readHeader (writeHeader (headerFor txData now)) = headerFor txData now :=
    readHeader_writeHeader _
  simp only [receive, append_assoc, readFull_append (length_writeHeader _), hread]
  simp only [headerFor, hfits, readFull_append hlen, gt_iff_lt, not_lt.mpr hsize, if_false]
  by_cases hsum : calculateChecksum received = calculateChecksum txData <;> simp [hsum]

lemma receiveLoop_nil (turns : ℕ) (recvCh : List (List UInt8)) :
    receiveLoop turns { incoming := [], recvCh := recvCh } =
      { incoming := [], recvCh := recvCh } :=
  Function.iterate_fixed rfl turns

/-- What is forwarded of frames whose payloads arrive as given. -/
def forwarded (messages : List (List UInt8 × Int64)) (received : List (List UInt8)) :
    List (List UInt8) :=
  ((messages.zip received).filter fun p => p.2 = p.1.1).map Prod.snd

/-- A payload that arrives in the place of another: as long as it, and either the same or one that
the checksum tells apart. -/
def Arrives (message : List UInt8 × Int64) (received : List UInt8) : Prop :=
  received.length = message.1.length ∧
    (received = message.1 ∨ calculateChecksum received ≠ calculateChecksum message.1)

/-- The headers of some messages, each followed by what arrives of its payload. -/
def arriving (messages : List (List UInt8 × Int64)) (received : List (List UInt8)) : List UInt8 :=
  (List.zipWith (fun message bytes => writeHeader (headerFor message.1 message.2) ++ bytes) messages
    received).flatten

variable {messages : List (List UInt8 × Int64)}

section Sized
variable (hsize : ∀ message ∈ messages, message.1.length ≤ maxMessageSize)
include hsize

/-- **A stream of frames**, whose payloads arrive unaltered or recognisably altered, is read frame
by frame, and then the loop goes on with what follows. By induction on the frames, one turn for
each. -/
lemma receiveLoop_arriving (hreceived : List.Forall₂ Arrives messages received) (turns : ℕ)
    (rest : List UInt8) (recvCh : List (List UInt8)) :
    receiveLoop (turns + messages.length)
        { incoming := arriving messages received ++ rest, recvCh := recvCh } =
      receiveLoop turns { incoming := rest, recvCh := recvCh ++ forwarded messages received } := by
  induction hreceived generalizing recvCh with
  | nil => simp [forwarded, arriving]
  | @cons message bytes messages received harrives hrest ih =>
    rw [forall_mem_cons] at hsize
    obtain ⟨hlen, hsame⟩ := harrives
    have hsum : calculateChecksum bytes = calculateChecksum message.1 ↔ bytes = message.1 :=
      ⟨fun heq => hsame.resolve_right (not_not.mpr heq), fun heq => by rw [heq]⟩
    have hframe : arriving (message :: messages) (bytes :: received) ++ rest =
        writeHeader (headerFor message.1 message.2) ++ bytes ++
          (arriving messages received ++ rest) := by
      simp [arriving]
    rw [length_cons, ← add_assoc, receiveLoop, Function.iterate_succ_apply, hframe,
      receive_frame hsize.1 hlen, ← receiveLoop, ih hsize.2]
    by_cases heq : bytes = message.1 <;> simp [forwarded, hsum, heq]

lemma receiveLoop_frames (hreceived : List.Forall₂ Arrives messages received) {turns : ℕ}
    (hturns : messages.length ≤ turns) (recvCh : List (List UInt8)) :
    receiveLoop turns { incoming := arriving messages received, recvCh := recvCh } =
      { incoming := [], recvCh := recvCh ++ forwarded messages received } := by
  have hloop := receiveLoop_arriving hsize hreceived (turns - messages.length) [] recvCh
  rwa [append_nil, Nat.sub_add_cancel hturns, receiveLoop_nil] at hloop

lemma mapM_sendTransaction :
    messages.mapM (fun message => sendTransaction message.1 message.2) =
      .ok (messages.map fun message =>
        writeHeader (headerFor message.1 message.2) ++ message.1) := by
  induction messages with
  | nil => rfl
  | cons message messages ih =>
    rw [forall_mem_cons] at hsize
    rw [mapM_cons, ih hsize.2, sendTransaction, if_neg (not_lt.mpr hsize.1)]
    rfl

end Sized

lemma length_le_of_mapM_sendTransaction {frames : List (List UInt8)}
    (h : messages.mapM (fun message => sendTransaction message.1 message.2) = .ok frames) :
    ∀ message ∈ messages, message.1.length ≤ maxMessageSize := by
  induction messages generalizing frames with
  | nil => exact fun _ hmem => nomatch hmem
  | cons message messages ih =>
    rw [mapM_cons, sendTransaction] at h
    split_ifs at h with hlarge
    · cases h
    · cases hrest : messages.mapM (fun message => sendTransaction message.1 message.2) with
      | error err => rw [hrest] at h; cases h
      | ok rest => exact forall_mem_cons.mpr ⟨not_lt.mp hlarge, ih hrest⟩

lemma flatten_zipWith_take (messages : List (List UInt8 × Int64)) (received : List (List UInt8)) :
    (List.zipWith (fun frame bytes => frame.take headerSize ++ bytes)
      (messages.map fun message => writeHeader (headerFor message.1 message.2) ++ message.1)
        received).flatten = arriving messages received := by
  rw [zipWith_map_left]
  simp only [take_left' (length_writeHeader _), arriving]

lemma forwarded_self (messages : List (List UInt8 × Int64)) :
    forwarded messages (messages.map Prod.fst) = messages.map Prod.fst := by
  induction messages with
  | nil => rfl
  | cons message messages ih =>
    simp only [forwarded, map_cons, zip_cons_cons] at ih ⊢
    simp [ih]

/-- **The framed transport is faithful**: the loop delivers just the payloads sent, in their order;
and if some are altered on the way, their lengths being kept and their checksums not, the other
ones. -/
theorem receiveLoop_delivers (messages : List (List UInt8 × Int64))
    (hsize : ∀ message ∈ messages, message.1.length ≤ maxMessageSize) :
    ∃ frames, messages.mapM (fun message => sendTransaction message.1 message.2) = .ok frames ∧
      (∀ turns, messages.length ≤ turns →
        (receiveLoop turns { incoming := frames.flatten }).recvCh = messages.map Prod.fst) ∧
      ∀ received, List.Forall₂ Arrives messages received → ∀ turns, messages.length ≤ turns →
        (receiveLoop turns { incoming := (List.zipWith (fun frame bytes =>
          frame.take headerSize ++ bytes) frames received).flatten }).recvCh =
            forwarded messages received := by
  refine ⟨_, mapM_sendTransaction hsize, fun turns hturns => ?_,
    fun received hreceived turns hturns => ?_⟩
  · -- nothing is altered
    have hsame : List.Forall₂ Arrives messages (messages.map Prod.fst) := by
      rw [forall₂_map_right_iff]
      exact forall₂_same.mpr fun _ _ => ⟨rfl, .inl rfl⟩
    have hstream : messages.map (fun message =>
        writeHeader (headerFor message.1 message.2) ++ message.1) =
        List.zipWith (fun message bytes => writeHeader (headerFor message.1 message.2) ++ bytes)
          messages (messages.map Prod.fst) := by
      rw [zipWith_map_right, zipWith_self]
    rw [hstream, ← arriving, receiveLoop_frames hsize hsame hturns, nil_append, forwarded_self]
  · rw [flatten_zipWith_take, receiveLoop_frames hsize hreceived hturns, nil_append]

theorem receiveLoop_two_frames :
    ∃ frames, [([1, 2], 0), ([], 5)].mapM (fun message : List UInt8 × Int64 =>
        sendTransaction message.1 message.2) = .ok frames ∧
      (receiveLoop 2 { incoming := frames.flatten }).recvCh = [[1, 2], []] := by
  obtain ⟨frames, hframes, hdelivers, -⟩ := receiveLoop_delivers [([1, 2], 0), ([], 5)] (by decide)
  exact ⟨frames, hframes, hdelivers 2 (by decide)⟩

end RawSocket

/-! ## Altered payloads -/

/-- Two payloads of one length that differ in exactly one byte. -/
structure OneByteAltered (payload altered : List UInt8) : Prop where
  length_eq : altered.length = payload.length
  once : ∃! i : ℕ, altered[i]? ≠ payload[i]?

lemma OneByteAltered.exists_append {payload altered : List UInt8}
    (h : OneByteAltered payload altered) :
    ∃ before a b after, a ≠ b ∧ payload = before ++ a :: after ∧
      altered = before ++ b :: after := by
  obtain ⟨hlen, i, hi, hother⟩ := h
  have hsame : ∀ j, j ≠ i → altered[j]? = payload[j]? := fun j hj =>
    by_contra fun hne => hj (hother j hne)
  have hlt : i < payload.length := by
    by_contra hge
    exact hi (by rw [List.getElem?_eq_none (by omega), List.getElem?_eq_none (by omega)])
  have hlt' : i < altered.length := hlen ▸ hlt
  rw [List.getElem?_eq_getElem hlt, List.getElem?_eq_getElem hlt'] at hi
  have hbefore : altered.take i = payload.take i := by
    apply ext_getElem?
    intro j
    rcases lt_or_ge j i with hj | hj
    · rw [List.getElem?_take_of_lt hj, List.getElem?_take_of_lt hj, hsame j hj.ne]
    · rw [List.getElem?_take_eq_none hj, List.getElem?_take_eq_none hj]
  have hafter : altered.drop (i + 1) = payload.drop (i + 1) := by
    apply ext_getElem?
    intro j
    rw [List.getElem?_drop, List.getElem?_drop, hsame _ (by omega)]
  refine ⟨payload.take i, payload[i], altered[i], payload.drop (i + 1), fun heq => hi ?_, ?_, ?_⟩
  · rw [heq]
  · simp
  · rw [← hbefore, ← hafter]
    simp

lemma mul_checksumPrime_injective :
    Function.Injective fun hash : UInt64 => hash * 1099511628211 := by
  intro hash hash' heq
  have hinverse : (1099511628211 : UInt64) * 14886173955864302971 = 1 := by decide
  have hcancel := congrArg (· * (14886173955864302971 : UInt64)) heq
  simpa only [UInt64.mul_assoc, hinverse, UInt64.mul_one] using hcancel

/-- **The checksum finds a single byte that was altered**: every step of it is injective, in the
hash so far and in the byte. -/
lemma calculateChecksum_ne {payload altered : List UInt8} (h : OneByteAltered payload altered) :
    calculateChecksum altered ≠ calculateChecksum payload := by
  obtain ⟨before, a, b, after, hne, rfl, rfl⟩ := h.exists_append
  refine Run.foldl_ne_foldl (fun byte hash hash' heq => ?_) (fun hash byte byte' heq => ?_)
    hne.symm _ before after
  · exact (UInt64.xor_left_inj _).mp (mul_checksumPrime_injective heq)
  · exact UInt8.toUInt64_inj.mp ((UInt64.xor_right_inj _).mp (mul_checksumPrime_injective heq))

namespace RawSocket

lemma recvCh_receive_altered {payload altered : List UInt8} (h : OneByteAltered payload altered)
    {header : MessageHeader} (hsize : header.payloadSize.toNat = payload.length)
    (hsum : header.checksum = calculateChecksum payload) (rest : List UInt8)
    (recvCh : List (List UInt8)) :
    (receive { incoming := writeHeader header ++ altered ++ rest, recvCh := recvCh }).recvCh =
      recvCh := by
  have hne := calculateChecksum_ne h
  simp only [receive, append_assoc, readFull_append (length_writeHeader _), readHeader_writeHeader]
  split_ifs
  · rfl
  · simp only [readFull_append (h.length_eq.trans hsize.symm), hsum, ne_eq, hne, not_false_eq_true,
      if_true]

/-- The payloads of frames that arrive, each as it was sent or with one byte altered. -/
def ArrivesAltered (message : List UInt8 × Int64) (received : List UInt8) : Prop :=
  received = message.1 ∨ OneByteAltered message.1 received

lemma ArrivesAltered.arrives {message : List UInt8 × Int64} {received : List UInt8}
    (h : ArrivesAltered message received) : Arrives message received := by
  rcases h with rfl | h
  · exact ⟨rfl, .inl rfl⟩
  · exact ⟨h.length_eq, .inr (calculateChecksum_ne h)⟩

/-- After any number of turns, the frames read so far have been forwarded, without those that were
altered. -/
lemma recvCh_receiveLoop_altered {messages : List (List UInt8 × Int64)}
    (hsize : ∀ message ∈ messages, message.1.length ≤ maxMessageSize)
    (hreceived : List.Forall₂ ArrivesAltered messages received) (turns : ℕ) :
    (receiveLoop turns { incoming := arriving messages received }).recvCh =
      forwarded (messages.take turns) (received.take turns) := by
  have harrives : List.Forall₂ Arrives messages received :=
    hreceived.imp fun _ _ => ArrivesAltered.arrives
  rcases le_total messages.length turns with hle | hle
  · rw [receiveLoop_frames hsize harrives hle, nil_append, take_of_length_le hle,
      take_of_length_le (hreceived.length_eq ▸ hle)]
  · have hsplit : arriving messages received =
        arriving (messages.take turns) (received.take turns) ++
          arriving (messages.drop turns) (received.drop turns) := by
      rw [arriving, arriving, arriving, ← flatten_append, ← take_zipWith,
        ← drop_zipWith, take_append_drop]
    have hloop := receiveLoop_arriving (fun message hmem => hsize message (mem_of_mem_take hmem))
      (forall₂_take turns harrives) 0
      (arriving (messages.drop turns) (received.drop turns)) []
    rw [Nat.zero_add, length_take, min_eq_left hle] at hloop
    rw [hsplit, hloop]
    rfl

/-- **A single byte that was altered is always found**: the checksums differ, the turn that reads
the frame does not deliver the payload, and of frames that arrive as they were sent or with one byte
altered, just the former are delivered. -/
theorem receiveLoop_drops_altered : (∀ payload altered, OneByteAltered payload altered →
      calculateChecksum altered ≠ calculateChecksum payload ∧
      ∀ header : MessageHeader, header.payloadSize.toNat = payload.length →
        header.checksum = calculateChecksum payload → ∀ rest recvCh,
          (receive { incoming := writeHeader header ++ altered ++ rest
                     recvCh := recvCh }).recvCh = recvCh) ∧
    ∀ messages frames received,
      messages.mapM (fun message => sendTransaction message.1 message.2) = .ok frames →
      List.Forall₂ ArrivesAltered messages received → ∀ turns,
        (receiveLoop turns { incoming := (List.zipWith (fun frame bytes =>
          frame.take headerSize ++ bytes) frames received).flatten }).recvCh =
            forwarded (messages.take turns) (received.take turns) := by
  constructor
  · intro payload altered h
    exact ⟨calculateChecksum_ne h, fun header hsize hsum => recvCh_receive_altered h hsize hsum⟩
  · intro messages frames received hframes hreceived turns
    have hsize := length_le_of_mapM_sendTransaction hframes
    obtain rfl := Except.ok.inj ((mapM_sendTransaction hsize).symm.trans hframes)
    rw [flatten_zipWith_take, recvCh_receiveLoop_altered hsize hreceived]

theorem receiveLoop_drops_altered_two :
    OneByteAltered [1, 2] [1, 3] ∧ calculateChecksum [1, 3] ≠ calculateChecksum [1, 2] ∧
      ∃ frames, [([7], 0), ([1, 2], 5)].mapM (fun message : List UInt8 × Int64 =>
          sendTransaction message.1 message.2) = .ok frames ∧
        (receiveLoop 9 { incoming := (List.zipWith (fun frame bytes =>
          frame.take headerSize ++ bytes) frames [[7], [1, 3]]).flatten }).recvCh = [[7]] := by
  have haltered : OneByteAltered [1, 2] [1, 3] := by
    refine ⟨rfl, 1, by decide, fun i hi => ?_⟩
    match i with
    | 0 => exact absurd rfl hi
    | 1 => rfl
    | i + 2 => exact absurd rfl hi
  obtain ⟨hfound, hdrops⟩ := receiveLoop_drops_altered
  obtain ⟨frames, hframes⟩ : ∃ frames, [([7], 0), ([1, 2], 5)].mapM
      (fun message : List UInt8 × Int64 => sendTransaction message.1 message.2) = .ok frames :=
    ⟨_, mapM_sendTransaction (by decide)⟩
  exact ⟨haltered, (hfound _ _ haltered).1, frames, hframes,
    hdrops _ _ [[7], [1, 3]] hframes (.cons (.inl rfl) (.cons (.inr haltered) .nil)) 9⟩

end RawSocket

end HybridChain
