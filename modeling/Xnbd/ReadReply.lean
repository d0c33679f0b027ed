import Xnbd.Forwarder
import Xnbd.Negotiate

/-!
# Replies to remote reads (`lib/nbd.c`, `xnbd_proxy_forwarder.c`)

`forwarder_rx` takes the replies of the remote server from the connection byte by
byte and stores their payload in the cache file. The server is not trusted here:
whatever bytes it sends, a payload should be stored only behind a reply that
reports success.
-/
namespace Xnbd.ReadReply

open CInt Block Bitmap Bytes Nbd NetIov Negotiate Forwarder Run
open TargetRead (sizeofNbdReply replyBytes readOne)

section Header

/-- The error field of the reply at the head of a stream. -/
def errorOf (stream : List UInt8) : Nat := decodeBE ((stream.drop 4).take 4)

/-- A whole header with the magic and the handle. -/
def Accepted (handle : Nat) (stream : List UInt8) : Prop :=
  sizeofNbdReply ≤ stream.length ∧ decodeBE (stream.take 4) = nbdReplyMagic ∧
    decodeBE ((stream.drop 8).take 8) = handle

def Success (handle : Nat) (stream : List UInt8) : Prop :=
  Accepted handle stream ∧ errorOf stream = 0

/-- An error code whose negation, as an `int`, is positive. -/
def HighError (handle : Nat) (stream : List UInt8) : Prop :=
  Accepted handle stream ∧ 2 ^ 31 < errorOf stream

instance (handle : Nat) (stream : List UInt8) : Decidable (Accepted handle stream) :=
  inferInstanceAs (Decidable (_ ∧ _))

instance (handle : Nat) (stream : List UInt8) : Decidable (Success handle stream) :=
  inferInstanceAs (Decidable (_ ∧ _))

instance (handle : Nat) (stream : List UInt8) : Decidable (HighError handle stream) :=
  inferInstanceAs (Decidable (_ ∧ _))

theorem errorOf_lt (stream : List UInt8) : errorOf stream < 2 ^ 32 := by
  have hlen : ((stream.drop 4).take 4).length ≤ 4 := List.length_take_le 4 _
  calc errorOf stream < 256 ^ ((stream.drop 4).take 4).length := decodeBE_lt _
    _ ≤ 256 ^ 4 := Nat.pow_le_pow_right (by decide) hlen
    _ = 2 ^ 32 := by decide

/-- The negation of an unsigned 32-bit value, as an `int`. -/
theorem toInt32_neg_nonneg {error : Nat} (hlt : error < 2 ^ 32) :
    0 ≤ toInt32 (-error) ↔ error = 0 ∨ 2 ^ 31 < error := by
  unfold toInt32
  omega

theorem nbdClientRecvReplyHeader_neg {handle : Nat} {got : List UInt8} :
    nbdClientRecvReplyHeader handle got < 0 ↔
      ¬(Accepted handle got ∧ (errorOf got = 0 ∨ 2 ^ 31 < errorOf got)) := by
  have hsign := toInt32_neg_nonneg (errorOf_lt got)
  have hepipe : 0 < epipe := by decide
  simp only [nbdClientRecvReplyHeader, Accepted]
  split
  · omega
  split
  · rename_i hmagic
    simp [hepipe, hmagic]
  split
  · rename_i hhandle
    simp [hepipe, hhandle]
  · rename_i hlen hmagic hhandle
    have hfull : Accepted handle got := ⟨by omega, not_not.mp hmagic, not_not.mp hhandle⟩
    have hunfold : errorOf got = decodeBE ((got.drop 4).take 4) := rfl
    simp only [Accepted] at hfull
    simp only [hfull, true_and, ← hunfold]
    split
    · omega
    · omega

/-- A field that ends within the part taken. -/
theorem field_take {n off width : Nat} (h : off + width ≤ n) (stream : List UInt8) :
    ((stream.take n).drop off).take width = (stream.drop off).take width := by
  rw [List.drop_take, List.take_take, Nat.min_eq_left (by omega)]

/-- What a header says does not depend on the bytes behind it. -/
theorem accepted_take (handle : Nat) (stream : List UInt8) :
    Accepted handle (stream.take sizeofNbdReply) ↔ Accepted handle stream := by
  have hmagic : (stream.take 16).take 4 = stream.take 4 := @field_take 16 0 4 (by omega) stream
  have hhandle := @field_take 16 8 8 (by omega) stream
  have hlen : 16 ≤ (stream.take 16).length ↔ 16 ≤ stream.length := by
    rw [List.length_take]
    omega
  simp only [Accepted, sizeofNbdReply, hmagic, hhandle, hlen]

theorem errorOf_take (stream : List UInt8) :
    errorOf (stream.take sizeofNbdReply) = errorOf stream :=
  congrArg decodeBE (field_take (by decide) stream)

theorem success_take (handle : Nat) (stream : List UInt8) :
    Success handle (stream.take sizeofNbdReply) ↔ Success handle stream := by
  simp only [Success, accepted_take, errorOf_take]

theorem highError_take (handle : Nat) (stream : List UInt8) :
    HighError handle (stream.take sizeofNbdReply) ↔ HighError handle stream := by
  simp only [HighError, accepted_take, errorOf_take]

/-- A header is taken for success exactly if it reports success or a high error. -/
theorem nbdClientRecvReplyHeader_nonneg (handle : Nat) (got : List UInt8) :
    0 ≤ nbdClientRecvReplyHeader handle got ↔ Success handle got ∨ HighError handle got := by
  rw [← not_lt, nbdClientRecvReplyHeader_neg, not_not, and_or_left]
  rfl

theorem success_not_highError {handle : Nat} {stream : List UInt8} (h : Success handle stream) :
    ¬HighError handle stream := by
  rintro ⟨-, hhigh⟩
  have hzero := h.2
  omega

end Header

section Receive

/-- What a receive came to: the return value, the bytes stored with their addresses,
in order, and what it left of the stream. -/
structure Received where
  ret : Int
  stores : List (Int × UInt8)
  rest : List UInt8
  deriving DecidableEq

/-- The results `readv` may give on a connection: an error, or a count that stays
within the list and what has arrived; it is 0 only for want of either, when the
peer has closed the connection. -/
def StreamMay (stream : List UInt8) (iov : List Iovec) (sent : Int) : Prop :=
  sent = -1 ∨ (0 ≤ sent ∧ sent ≤ size iov ∧ sent ≤ stream.length ∧
    (sent = 0 → size iov = 0 ∨ stream = []))

instance (stream : List UInt8) (iov : List Iovec) (sent : Int) :
    Decidable (StreamMay stream iov sent) := inferInstanceAs (Decidable (_ ∨ _))

/-- `net_readv_all` and `net_recv_all` on a stream; `results` are the return values
of `readv`. -/
def netReadvAll (iov : List Iovec) (stream : List UInt8) (total : Int) :
    List Int → Option Received
  | [] => none
  | sent :: results =>
    if StreamMay stream iov sent then
      let stores := (cells iov).zip (stream.take sent.toNat)
      match netIovStep iov total sent with
      | .done ret => some ⟨ret, stores, stream.drop sent.toNat⟩
      | .next iov' total' =>
        (netReadvAll iov' (stream.drop sent.toNat) total' results).map fun m =>
          ⟨m.ret, stores ++ m.stores, m.rest⟩
    else none

/-- `nbd_client_recv_read_reply_iov`; `head` and `body` are the return values of
`readv` for the header and for the payload. -/
def nbdClientRecvReadReplyIov (iov : List Iovec) (handle : Nat) (stream : List UInt8)
    (head body : List Int) : Option Received :=
  (netReadvAll [⟨0, sizeofNbdReply⟩] stream 0 head).bind fun h =>
    if nbdClientRecvReplyHeader handle (h.stores.map Prod.snd) < 0 then some ⟨-epipe, [], h.rest⟩
    else
      (netReadvAll iov h.rest 0 body).map fun m =>
        ⟨if allOrError (size iov) m.ret < 0 then -epipe else 0, m.stores, m.rest⟩

/-- `nbd_client_recv_read_reply`. -/
def nbdClientRecvReadReply (buf : Int) (len : Nat) (stream : List UInt8) (head body : List Int) :
    Option Received :=
  nbdClientRecvReadReplyIov [⟨buf, len⟩] myhandle stream head body

variable {iov : List Iovec} {stream : List UInt8} {total sent : Int} {results head body : List Int}
  {m : Received} {handle : Nat}

theorem streamMay_count (h : StreamMay stream iov sent) :
    (stream.take sent.toNat).length = sent.toNat ∧ sent.toNat ≤ (cells iov).length := by
  rw [List.length_take, cells_length]
  obtain rfl | ⟨h0, hsize, hstream, -⟩ := h
  · simp
  · omega

/-- The bytes stored are the head of the stream. -/
theorem netReadvAll_bytes (h : netReadvAll iov stream total results = some m) :
    m.stores.map Prod.snd ++ m.rest = stream := by
  induction results generalizing iov stream total m with
  | nil => cases h
  | cons sent results ih =>
    simp only [netReadvAll] at h
    split at h
    · rename_i hmay
      obtain ⟨hcount, hcells⟩ := streamMay_count hmay
      have hstores : ((cells iov).zip (stream.take sent.toNat)).map Prod.snd =
          stream.take sent.toNat := List.map_snd_zip (by omega)
      split at h
      · cases h
        rw [hstores, List.take_append_drop]
      · obtain ⟨m', hrec, hm⟩ := Option.map_eq_some_iff.mp h
        subst hm
        rw [List.map_append, hstores, List.append_assoc, ih hrec, List.take_append_drop]
    · cases h

/-- No more is stored than was asked for. -/
theorem netReadvAll_length (hmax : size iov < 2 ^ 31)
    (h : netReadvAll iov stream total results = some m) : m.stores.length ≤ size iov := by
  induction results generalizing iov stream total m with
  | nil => cases h
  | cons sent results ih =>
    simp only [netReadvAll] at h
    split at h
    · rename_i hmay
      obtain ⟨hcount, hcells⟩ := streamMay_count hmay
      have hstores : ((cells iov).zip (stream.take sent.toNat)).length = sent.toNat := by
        rw [List.length_zip]
        omega
      rw [cells_length] at hcells
      split at h
      · cases h
        rw [hstores]
        exact hcells
      · rename_i rest total' hstep
        obtain ⟨m', hrec, hm⟩ := Option.map_eq_some_iff.mp h
        obtain ⟨hne0, hne1, hadvance, -⟩ := netIovStep_next hstep
        have hpos : 0 ≤ sent := by
          obtain hminus | ⟨h0, -⟩ := hmay
          · exact absurd hminus hne1
          · exact h0
        have hsize := (advance_cells (le_refl 0) (by omega) hadvance hpos).2
        have hle := ih (by omega) hrec
        subst hm
        rw [List.length_append]
        omega
    · cases h

/-- A buffer that one call fills. -/
theorem netReadvAll_whole {base : Int} {bytes tail : List UInt8} (h0 : bytes ≠ [])
    (hmax : bytes.length < 2 ^ 31) :
    netReadvAll [⟨base, bytes.length⟩] (bytes ++ tail) 0 [(bytes.length : Int)] =
      some ⟨bytes.length, (cells [⟨base, bytes.length⟩]).zip bytes, tail⟩ := by
  have hpos : 0 < bytes.length := List.length_pos_iff.mpr h0
  have hmay : StreamMay (bytes ++ tail) [⟨base, bytes.length⟩] (bytes.length : Int) := by
    right
    simp only [size_cons, size_nil, List.length_append]
    omega
  have hne0 : ¬((bytes.length : Int) = 0) := by omega
  have hne1 : ¬((bytes.length : Int) = -1) := by omega
  have hstep : netIovStep [⟨base, bytes.length⟩] 0 (bytes.length : Int) = .done bytes.length := by
    unfold netIovStep
    rw [if_neg hne0, if_neg hne1, advance_single hmax (by omega), if_neg (lt_irrefl _)]
    dsimp only
    rw [Int.zero_add, toInt32_of_range (by omega) (by omega)]
  simp only [netReadvAll, if_pos hmay, hstep, Int.toNat_natCast, List.take_left, List.drop_left]

/-- What was received for the header is the head of the stream, and all of the
header if it is long enough for one. -/
theorem header_received (h : netReadvAll [⟨0, sizeofNbdReply⟩] stream total head = some m)
    (hlen : sizeofNbdReply ≤ (m.stores.map Prod.snd).length) :
    m.stores.map Prod.snd = stream.take sizeofNbdReply := by
  have hmost := netReadvAll_length (by decide) h
  have hall : (m.stores.map Prod.snd).length = sizeofNbdReply := by
    simp only [size_cons, size_nil, List.length_map] at hmost hlen ⊢
    omega
  rw [← netReadvAll_bytes h, ← hall, List.take_left]

/-- Bytes are stored, or success is reported, only behind a header that is taken
for success. -/
theorem nbdClientRecvReadReplyIov_header
    (h : nbdClientRecvReadReplyIov iov handle stream head body = some m)
    (hused : m.stores ≠ [] ∨ m.ret = 0) : Success handle stream ∨ HighError handle stream := by
  simp only [nbdClientRecvReadReplyIov, Option.bind_eq_some_iff] at h
  obtain ⟨hd, hhead, h⟩ := h
  split at h
  · cases h
    have hne : (-epipe : Int) ≠ 0 := by decide
    simp [hne] at hused
  · rename_i hsign
    have hok := (nbdClientRecvReplyHeader_nonneg _ _).mp (not_lt.mp hsign)
    have hlen : sizeofNbdReply ≤ (hd.stores.map Prod.snd).length := by
      cases hok with
      | inl hs => exact hs.1.1
      | inr hh => exact hh.1.1
    rw [header_received hhead hlen, success_take, highError_take] at hok
    exact hok

/-- A header that is taken for success lets the bytes behind it through. -/
theorem nbdClientRecvReadReplyIov_takes {reply : List UInt8} (hlen : reply.length = sizeofNbdReply)
    (hok : 0 ≤ nbdClientRecvReplyHeader handle reply) (b : UInt8) :
    nbdClientRecvReadReplyIov [⟨0, 1⟩] handle (reply ++ [b]) [16] [1] =
      some ⟨0, [(0, b)], []⟩ := by
  have hne : reply ≠ [] := by
    rintro rfl
    cases hlen
  have hcells : ((cells [⟨0, sizeofNbdReply⟩]).zip reply).map Prod.snd = reply := by
    apply List.map_snd_zip
    rw [cells_length, hlen]
    decide
  have hhead := @netReadvAll_whole 0 reply [b] hne (by rw [hlen]; decide)
  have hbody : netReadvAll [⟨0, 1⟩] [b] 0 [1] = some ⟨1, [(0, b)], []⟩ :=
    @netReadvAll_whole 0 [b] [] (by simp) (by simp)
  have hcount : ((reply.length : Nat) : Int) = 16 := by
    rw [hlen]
    rfl
  rw [hcount, hlen] at hhead
  rw [nbdClientRecvReadReplyIov, hhead, Option.bind_some]
  dsimp only
  rw [hcells, if_neg (not_lt.mpr hok), hbody]
  rfl

end Receive

section Link

variable {disksize : Nat}

/-- A reply that was received, with the bytes that stood at its head. -/
structure Receipt where
  header : List UInt8
  got : Received

/-- The forwarder and its connection: what the remote server has sent on it and was
not read yet. The receipts record what happened and are read by no step. -/
structure Link (disksize : Nat) where
  fwd : Fwd disksize
  stream : List UInt8
  receipts : List Receipt

/-- The remote server sends any bytes; `forwarder_rx` receives a reply; any other
step of the threads. -/
inductive Event (disksize : Nat) where
  | arrive (bytes : List UInt8)
  | receive (head body : List Int)
  | thread (a : Forwarder.Action disksize)

/-- The reply that `forwarder_rx` waits for. -/
def awaited (f : Fwd disksize) : Option (Priv disksize × MmapBlockRegion × Nat × ReadReq) :=
  match f.rx with
  | .recv p mbr i => p.req[i]?.map fun rr => (p, mbr, i, rr)
  | _ => none

/-- The mapping shares its pages with the cache file: its addresses are offsets. -/
def storeAll (cache : File) (stores : List (Int × UInt8)) : File :=
  stores.foldl (fun f x => store f x.1.toNat [x.2]) cache

/-- The loop of `forwarder_rx_thread_mainloop` behind `nbd_client_recv_read_reply`. -/
def afterReceive (f : Fwd disksize) (p : Priv disksize) (mbr : MmapBlockRegion) (i : Nat)
    (m : Received) : Fwd disksize :=
  let f := { f with cache := storeAll f.cache m.stores }
  if m.ret < 0 then { f with receivingFailed := true, rx := .recv p mbr p.req.length }
  else { f with rx := .recv p mbr (i + 1) }

/-- A reply comes in; the assertion is that of `nbd_client_recv_read_reply`. -/
def receiveStep (s : Link disksize) (head body : List Int) : Option (Link disksize) :=
  match awaited s.fwd with
  | some (p, mbr, i, rr) =>
    let (off, len) := remoteRange disksize rr
    if len < 2 ^ 32 then
      (nbdClientRecvReadReply (mbr.baIobuf + (off - mbr.baIofrom)) len s.stream head body).map
        fun m => ⟨afterReceive s.fwd p mbr i m, m.rest,
          s.receipts ++ [⟨s.stream.take sizeofNbdReply, m⟩]⟩
    else some { s with fwd := s.fwd.abort }
  | none => none

/-- The steps of the threads that do not touch the connection are those of the
forwarder; there is no remote disk to be told about. -/
def threadStep (cfg : Config disksize) (s : Link disksize) (a : Forwarder.Action disksize) :
    Option (Link disksize) :=
  (Forwarder.step cfg (fun _ => 0) s.fwd a).map fun f =>
    match a with
    | .requeue => { s with fwd := f, stream := [] }
    | _ => { s with fwd := f }

def step (cfg : Config disksize) (s : Link disksize) : Event disksize → Option (Link disksize)
  | .arrive bytes => some { s with stream := s.stream ++ bytes }
  | .receive head body => if s.fwd.aborted then none else receiveStep s head body
  | .thread (.rx ev) => if (awaited s.fwd).isSome then none else threadStep cfg s (.rx ev)
  | .thread a => threadStep cfg s a

def start (cbitmap : Words) (cache : File) : Link disksize :=
  ⟨Forwarder.initial cbitmap cache, [], []⟩

/-- No reply with a high error is about to be received. -/
def Ordinary (s : Link disksize) : Event disksize → Prop
  | .receive _ _ => ¬HighError myhandle s.stream
  | _ => True

instance (s : Link disksize) : (e : Event disksize) → Decidable (Ordinary s e)
  | .receive _ _ => inferInstanceAs (Decidable (¬_))
  | .arrive _ => isTrue trivial
  | .thread _ => isTrue trivial

/-- Bytes were stored, and success was reported, only behind a reply without error. -/
def Truthful (x : Receipt) : Prop :=
  x.got.stores ≠ [] ∨ x.got.ret = 0 → Success myhandle x.header

theorem threadStep_receipts {cfg : Config disksize} {s t : Link disksize}
    {a : Forwarder.Action disksize} (h : threadStep cfg s a = some t) :
    t.receipts = s.receipts := by
  simp only [threadStep, Option.map_eq_some_iff] at h
  obtain ⟨f, -, rfl⟩ := h
  cases a <;> rfl

/-- One more receipt at most. -/
theorem receiveStep_truthful {s t : Link disksize} {head body : List Int}
    (hs : ∀ x ∈ s.receipts, Truthful x) (hp : ¬HighError myhandle s.stream)
    (h : receiveStep s head body = some t) : ∀ x ∈ t.receipts, Truthful x := by
  simp only [receiveStep] at h
  split at h
  · split at h
    · obtain ⟨m, hrecv, rfl⟩ := Option.map_eq_some_iff.mp h
      intro x hx
      cases List.mem_append.mp hx with
      | inl hold => exact hs x hold
      | inr hnew =>
        rw [List.mem_singleton] at hnew
        subst hnew
        intro hused
        cases nbdClientRecvReadReplyIov_header hrecv hused with
        | inl hok => exact (success_take _ _).mpr hok
        | inr hhigh => exact absurd hhigh hp
    · cases h
      exact hs
  · cases h

theorem step_truthful {cfg : Config disksize} (s : Link disksize) (e : Event disksize)
    (t : Link disksize) (hs : ∀ x ∈ s.receipts, Truthful x) (hp : Ordinary s e)
    (h : step cfg s e = some t) : ∀ x ∈ t.receipts, Truthful x := by
  cases e with
  | arrive bytes =>
    cases h
    exact hs
  | receive head body =>
    simp only [step] at h
    split at h
    · cases h
    · exact receiveStep_truthful hs hp h
  | thread a =>
    have hthread : threadStep cfg s a = some t := by
      cases a with
      | rx ev =>
        simp only [step] at h
        split at h
        · cases h
        · exact h
      | _ => exact h
    rw [threadStep_receipts hthread]
    exact hs

/-- Replies are judged by the sign of the negated error code, so exactly those with a
high error are mistaken for success, and without them nothing is stored behind an
error reply. -/
theorem error_replies_refused_iff (handle : Nat) (reply : List UInt8) (hlen : reply.length = 16)
    (cfg : Config disksize) (cbitmap : Words) (cache : File) :
    ((0 ≤ nbdClientRecvReplyHeader handle reply ↔ Success handle reply) ↔
      ¬HighError handle reply) ∧
    ((∀ tail iov head body m,
      nbdClientRecvReadReplyIov iov handle (reply ++ tail) head body = some m →
      m.stores ≠ [] ∨ m.ret = 0 → Success handle reply) ↔ ¬HighError handle reply) ∧
    ∀ events t, Along (step cfg) Ordinary (start cbitmap cache) events →
      run (step cfg) (start cbitmap cache) events = some t → ∀ x ∈ t.receipts, Truthful x := by
  refine ⟨?_, ?_, ?_⟩
  · rw [nbdClientRecvReplyHeader_nonneg]
    constructor
    · intro hiff hhigh
      exact success_not_highError (hiff.mp (.inr hhigh)) hhigh
    · intro hnot
      exact or_iff_left hnot
  · have hhead : ∀ tail, (reply ++ tail).take sizeofNbdReply = reply := fun tail => by
      rw [← (show reply.length = sizeofNbdReply from hlen), List.take_left]
    constructor
    · intro hall hhigh
      have hok := (nbdClientRecvReplyHeader_nonneg handle reply).mpr (.inr hhigh)
      have htaken := nbdClientRecvReadReplyIov_takes hlen hok 0
      exact success_not_highError (hall _ _ _ _ _ htaken (.inr rfl)) hhigh
    · intro hnot tail iov head body m h hused
      have hok := nbdClientRecvReadReplyIov_header h hused
      rw [← success_take, ← highError_take, hhead] at hok
      exact hok.resolve_right hnot
  · intro events t hp h
    exact run_invariant step_truthful (fun x hx => absurd hx List.not_mem_nil) hp h

/-- A proxy of a disk of two bytes. -/
def twoBytes : Config 2 := ⟨4096, false, 0, 0, Nat.two_pos, two_le_offMax, page_pos, page_le⟩

/-- A READ of the first byte is forwarded and answered with the reply. -/
def forwarded (reply : List UInt8) : List (Event 2) :=
  .thread (.push (.req (Priv.fresh ⟨0, 7, readOne 0 Nat.two_pos⟩))) ::
    List.replicate 6 (.thread (.tx true)) ++
    [.thread (.rx .reply), .arrive reply, .receive [16] [1, 1], .thread (.rx .reply),
      .thread (.rx .reply)]

/-- What was stored and what the client was given. -/
def outcome (t : Link 2) : List (List UInt8) × List UInt8 × Bool :=
  (t.receipts.map fun x => x.got.stores.map Prod.snd, slice t.fwd.cache 0 2,
    t.fwd.receivingFailed)

/-- A reply without error, and its two bytes stored. -/
theorem error_replies_refused_iff_answered :
    (¬HighError myhandle (replyBytes 0 myhandle)) ∧
      (0 ≤ nbdClientRecvReplyHeader myhandle (replyBytes 0 myhandle) ↔
        Success myhandle (replyBytes 0 myhandle)) ∧
      ∃ t, run (step twoBytes) (start [0] fun _ => 0)
          (forwarded (replyBytes 0 myhandle ++ [8, 9])) = some t ∧
        outcome t = ([[8, 9]], [8, 9], false) ∧ ∀ x ∈ t.receipts, Truthful x := by
  have hnot : ¬HighError myhandle (replyBytes 0 myhandle) := by decide
  have hrun : (run (step twoBytes) (start [0] fun _ => 0)
      (forwarded (replyBytes 0 myhandle ++ [8, 9]))).map outcome =
        some ([[8, 9]], [8, 9], false) := by decide +kernel
  obtain ⟨t, ht, hout⟩ := Option.map_eq_some_iff.mp hrun
  have h := error_replies_refused_iff myhandle (replyBytes 0 myhandle) (by decide) twoBytes [0]
    fun _ => 0
  exact ⟨hnot, h.1.mpr hnot, t, ht, hout, h.2.2 _ t (by decide +kernel) ht⟩

/-- A reply whose error code is -2147483647 as an `int` is taken for success, and what
follows it is stored as disk data. -/
theorem high_error_taken_for_success :
    (¬∀ (handle : Nat) (reply : List UInt8), reply.length = 16 →
      (0 ≤ nbdClientRecvReplyHeader handle reply ↔ Success handle reply)) ∧
    ¬∀ (events : List (Event 2)) (t : Link 2),
      run (step twoBytes) (start [0] fun _ => 0) events = some t →
      ∀ x ∈ t.receipts, Truthful x := by
  constructor
  · intro hall
    exact absurd (hall myhandle (replyBytes 0x80000001 myhandle) (by decide)) (by decide)
  · intro hall
    have hrun : (run (step twoBytes) (start [0] fun _ => 0)
        (forwarded (replyBytes 0x80000001 myhandle ++ [8, 9]))).map
          (fun t => (t.receipts.any fun x => decide (x.got.stores ≠ []) &&
            decide (¬Success myhandle x.header), slice t.fwd.cache 0 2)) =
          some (true, [8, 9]) := by decide +kernel
    obtain ⟨t, ht, hbad⟩ := Option.map_eq_some_iff.mp hrun
    obtain ⟨x, hx, hx'⟩ := List.any_eq_true.mp (congrArg Prod.fst hbad)
    simp only [Bool.and_eq_true, decide_eq_true_eq] at hx'
    exact hx'.2 (hall _ t ht x hx (.inl hx'.1))

end Link

end Xnbd.ReadReply
