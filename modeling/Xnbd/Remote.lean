import Xnbd.Linear
import Xnbd.RemoteReads
import Xnbd.SessionDisk

/-!
# A proxy whose remote server is a target server of this repository

The forwarder sends its READ requests as bytes to the worker of `xnbd_target.c`, which takes
them off the connection, and whose replies the forwarder receives byte by byte. Sends may
fail after a part of a request, receives may come to an end of the stream, and the worker may
end in the middle of a reply.
-/
namespace Xnbd.Remote

open CInt Block Bitmap Bytes Nbd NetIov Negotiate Requests Forwarder Reference Transitions Pipeline
  Coherence CacheFile Proxy Sessions Linear Run ReadReply RemoteReads FlatDisk
open TargetRead (sizeofNbdReply replyBytes replyBytes_length)
open Replies (Calls Query targetModeMainMmap)
open SessionDisk (flatOut)

variable {disksize : Nat}

section Model

/-- The proxy, its connection to the remote server in both directions, and the worker there
with its disk. -/
structure System (disksize : Nat) where
  proxy : Proxy.State disksize
  disk : File
  requests : List UInt8
  replies : List UInt8
  serving : Bool

/-- What the worker makes of the bytes that have come in: `nbd_server_recv_request`, and the
payload of a WRITE behind it. -/
inductive Next (disksize : Nat) where
  | waits
  | ends
  | refuses (error handle : Nat) (rest : List UInt8)
  | asks (q : Query disksize) (rest : List UInt8)

def nextRequest (disksize : Nat) (calls : Calls) (requests : List UInt8) : Next disksize :=
  if requests.length < sizeofNbdRequest then .waits
  else
    let rest := requests.drop sizeofNbdRequest
    match h : nbdServerRecvRequest disksize (requests.take sizeofNbdRequest) with
    | .ok iotype iofrom iolen handle =>
      have hadm := (nbdServerRecvRequest_ok h).2.2.2.2.2
      if hw : iotype = .write then
        if hl : (rest.take iolen).length = iolen then
          .asks ⟨⟨iotype, iofrom, iolen, rest.take iolen, hadm, fun _ => hl⟩, handle, calls⟩
            (rest.drop iolen)
        else .waits
      else
        .asks ⟨⟨iotype, iofrom, iolen, [], hadm, fun h => absurd h hw⟩, handle, calls⟩ rest
    | .badRequest error handle => .refuses error handle rest
    | .magicMismatch => .ends
    | .terminate => .ends

/-- `target_mode_main_mmap` once. -/
def serve (pagesize : Nat) (s : System disksize) (calls : Calls) : Option (System disksize) :=
  match nextRequest disksize calls s.requests with
  | .waits => none
  | .ends => some { s with serving := false }
  | .refuses error handle rest =>
    some { s with requests := rest, replies := s.replies ++ replyBytes error handle }
  | .asks q rest =>
    (targetModeMainMmap pagesize s.disk q).map fun p =>
      { s with disk := p.1, requests := rest, replies := s.replies ++ p.2 }

/-- The worker ends, and `cut` bytes of the reply to the request before it are on their way. -/
def breakOff (s : System disksize) (calls : Calls) (cut : Nat) : System disksize :=
  match nextRequest disksize calls s.requests with
  | .asks q _ => { s with serving := false, replies := s.replies ++ (flatOut s.disk q).take cut }
  | _ => { s with serving := false }

/-- The bytes of a remote read. -/
def askFor (r : Nat × Nat) : List UInt8 := requestBytes (iotypeCode .read) r.1 r.2 myhandle

/-- The READ that `forwarder_tx` is about to send, unless an assertion fails on it. -/
def asking (f : Fwd disksize) : Option (List UInt8) :=
  match f.tx with
  | .send p i => (p.req[i]?).bind fun rr =>
      if Sendable (remoteRange disksize rr) then some (askFor (remoteRange disksize rr)) else none
  | _ => none

/-- What a step of the forwarder sends. A send that fails leaves a part of the request on a
connection that then takes no more. -/
def sentBytes (f : Fwd disksize) (a : Forwarder.Action disksize) (cut : Nat) : List UInt8 :=
  match a with
  | .tx true => (asking f).getD []
  | .tx false => if f.sendingFailed then [] else ((asking f).getD []).dropLast.take cut
  | _ => []

/-- The steps of the proxy that receive no reply; with a new connection comes a new worker. -/
def actStep (cfg : Config disksize) (s : System disksize) (a : Act disksize) (cut : Nat) :
    Option (System disksize) :=
  (Proxy.step cfg (fun _ => 0) s.proxy a).map fun p =>
    match a with
    | .fwd .requeue => { s with proxy := p, requests := [], replies := [], serving := true }
    | .fwd fa => { s with proxy := p, requests := s.requests ++ sentBytes s.proxy.fwd fa cut }
    | _ => { s with proxy := p }

/-- The worker handles a request or ends; the proxy receives a reply; any other step of it. -/
inductive Event (disksize : Nat) where
  | serve (calls : Calls)
  | breakOff (calls : Calls) (cut : Nat)
  | receive (head body : List Int)
  | act (a : Act disksize) (cut : Nat)

/-- Replies come in as events of their own, and a connection that has failed a send takes no
other one. -/
def apart (f : Fwd disksize) : Act disksize → Bool
  | .fwd (.rx _) => (awaited f).isNone
  | .fwd (.tx true) => (asking f).isNone || !f.sendingFailed
  | _ => true

/-- `wire` records the remote reads that are not answered yet. What is received after a failure
answers none of them. -/
def dropAnswered (f g : Fwd disksize) : Fwd disksize :=
  match awaited f with
  | some (p, _, _, _) =>
    if g.aborted || g.receivingFailed || p.needRetry then g else { g with wire := g.wire.tail }
  | none => g

def step (cfg : Config disksize) (pagesize : Nat) (s : System disksize) :
    Event disksize → Option (System disksize)
  | .serve calls => if s.serving then serve pagesize s calls else none
  | .breakOff calls cut => if s.serving then some (breakOff s calls cut) else none
  | .receive head body =>
    if s.proxy.dead then none
    else (receiveStep ⟨s.proxy.fwd, s.replies, []⟩ head body).map fun l =>
      { s with
        proxy := { s.proxy with fwd := dropAnswered s.proxy.fwd l.fwd }
        replies := l.stream }
  | .act a cut => if apart s.proxy.fwd a then actStep cfg s a cut else none

def start (cbitmap : Words) (cache disk : File) : System disksize :=
  ⟨Proxy.start cbitmap cache, disk, [], [], true⟩

/-- The condition of the proxy on putting parked requests back. -/
def Orderly (s : System disksize) : Event disksize → Prop
  | .act a _ => Linear.Orderly s.proxy a
  | _ => True

instance (s : System disksize) : (e : Event disksize) → Decidable (Orderly s e)
  | .act a _ => inferInstanceAs (Decidable (Linear.Orderly s.proxy a))
  | .serve _ => isTrue trivial
  | .breakOff _ _ => isTrue trivial
  | .receive _ _ => isTrue trivial

end Model

section Traffic

variable {cfg : Config disksize} {remote : File} {f g : Fwd disksize}
  {fa : Forwarder.Action disksize}

/-- What a step of the forwarder that receives no reply means for the connection. -/
inductive Traffic (f : Fwd disksize) : Forwarder.Action disksize → Fwd disksize → Prop where
  | sends (p : Priv disksize) (i : Nat) (rr : ReadReq) (htx : f.tx = .send p i)
      (hrr : p.req[i]? = some rr) (hok : Sendable (remoteRange disksize rr)) :
      Traffic f (.tx true)
        { f with wire := f.wire ++ [remoteRange disksize rr], tx := .send p (i + 1) }
  | fails (p : Priv disksize) (i : Nat) (rr : ReadReq) (htx : f.tx = .send p i)
      (hrr : p.req[i]? = some rr) (hok : Sendable (remoteRange disksize rr)) :
      Traffic f (.tx false) { f with sendingFailed := true, tx := .send p p.req.length }
  | renews (g : Fwd disksize) (hexpected : expected g = []) : Traffic f .requeue g
  | keeps (a : Forwarder.Action disksize) (g : Fwd disksize) (ha : a ≠ .requeue)
      (hsent : ∀ cut, sentBytes f a cut = []) (hwire : g.wire = f.wire)
      (hsf : g.sendingFailed = f.sendingFailed) (hrf : g.receivingFailed = f.receivingFailed)
      (hexpected : f.sendingFailed = true → expected g = expected f) : Traffic f a g

theorem asking_none (h : ∀ p i rr, f.tx = .send p i → p.req[i]? ≠ some rr) : asking f = none := by
  cases htx : f.tx with
  | send p i =>
    cases hrr : p.req[i]? with
    | some rr => exact absurd hrr (h p i rr htx)
    | none => simp only [asking, htx, hrr, Option.bind_none]
  | _ => simp only [asking, htx]

theorem sentBytes_nil (h : (∀ sent, fa ≠ .tx sent) ∨ asking f = none) (cut : Nat) :
    sentBytes f fa cut = [] := by
  cases fa with
  | tx sent =>
    have hnone := h.resolve_left fun hno => hno sent rfl
    cases sent <;> simp [sentBytes, hnone]
  | _ => rfl

theorem tx_traffic {sent : Bool} (hs : Forwarder.step cfg remote f (.tx sent) = some g) :
    Traffic f (.tx sent) g := by
  by_cases hsending : ∃ p i rr, f.tx = .send p i ∧ p.req[i]? = some rr
  · obtain ⟨p, i, rr, htx, hrr⟩ := hsending
    simp only [Forwarder.step, Fwd.txStep, htx, Fwd.txSend, hrr] at hs
    split at hs
    · cases hs
    split at hs
    · rename_i hok
      cases sent with
      | true =>
        simp only [if_true, Option.some.injEq] at hs
        subst hs
        exact .sends p i rr htx hrr hok
      | false =>
        simp only [Bool.false_eq_true, if_false, Option.some.injEq] at hs
        subst hs
        exact .fails p i rr htx hrr hok
    · rename_i hbad
      cases hs
      have hnone : asking f = none := by simp only [asking, htx, hrr, Option.bind_some, if_neg hbad]
      exact .keeps _ _ (by simp) (sentBytes_nil (.inr hnone)) rfl rfl rfl fun _ => rfl
  · have hno : ∀ p i rr, f.tx = .send p i → p.req[i]? ≠ some rr :=
      fun p i rr htx hrr => hsending ⟨p, i, rr, htx, hrr⟩
    have hsent : ∀ cut, sentBytes f (.tx sent) cut = [] := sentBytes_nil (.inr (asking_none hno))
    cases step_trans hs with
    | txSent p i rr htx hrr
    | txSendFailed p i rr htx hrr => exact absurd hrr (hno p i rr htx)
    | abort => exact .keeps _ _ (by simp) hsent rfl rfl rfl fun _ => rfl
    | txPass sent p i htx hrr =>
      refine .keeps _ _ (by simp) hsent rfl rfl rfl fun hf => ?_
      simp [expected, hf, queuedRanges]
    | txStop sent htx
    | txExit sent k b htx =>
      refine .keeps _ _ (by simp) hsent rfl rfl rfl fun hf => ?_
      simp [expected, hf, queuedRanges]
    | _ =>
      refine .keeps _ _ (by simp) hsent rfl rfl rfl fun hf => ?_
      simp [expected, hf, Fwd.finishPrepare]

theorem rx_traffic {ev : RecvEvent} (hno : awaited f = none)
    (hs : Forwarder.step cfg remote f (.rx ev) = some g) : Traffic f (.rx ev) g := by
  have hnot : ∀ p mbr i rr, f.rx = .recv p mbr i → p.req[i]? ≠ some rr := by
    intro p mbr i rr hrx hrr
    simp [awaited, hrx, hrr] at hno
  have hsent : ∀ cut, sentBytes f (.rx ev) cut = [] := sentBytes_nil (.inl (by simp))
  cases step_trans hs with
  | rxReply p mbr i rr hrx hrr hw
  | rxStray p mbr i rr bytes hrx hrr hw hlen
  | rxFailed p mbr i rr bytes hrx hrr hlen => exact absurd hrr (hnot p mbr i rr hrx)
  | abort => exact .keeps _ _ (by simp) hsent rfl rfl rfl fun _ => rfl
  | rxTake ev p rest mbr hrx hq hm =>
    refine .keeps _ _ (by simp) hsent rfl rfl rfl fun _ => ?_
    cases hn : p.needRetry <;> simp [expected, hrx, rxExpects, hq, queuedRanges, hn]
  | rxStop ev rest hrx hq
  | rxExit ev k b rest hrx hq =>
    refine .keeps _ _ (by simp) hsent rfl rfl rfl fun _ => ?_
    simp [expected, hrx, rxExpects, hq, queuedRanges]
  | rxPark ev p mbr i hrx hrr hp
  | rxFlush ev p mbr i hrx hrr hp hf hr
  | rxExecute ev p mbr i cache readBuff hrx hrr hp hf hr hcache hbuff =>
    have hdrop : p.req.drop i = [] := List.drop_of_length_le (List.getElem?_eq_none_iff.mp hrr)
    refine .keeps _ _ (by simp) hsent rfl rfl rfl fun _ => ?_
    simp [expected, hrx, rxExpects, hdrop, ranges]
  | rxSync ev p synced hrx
  | rxHand ev e hrx =>
    refine .keeps _ _ (by simp) hsent rfl rfl rfl fun _ => ?_
    simp [expected, hrx, rxExpects]

theorem requeue_traffic (hc : Control f) (hs : Forwarder.step cfg remote f .requeue = some g) :
    Traffic f .requeue g := by
  simp only [Forwarder.step] at hs
  split at hs
  · rename_i hmain
    cases hs
    obtain ⟨htx, hrx⟩ := hc.parked (.inl hmain.2)
    have hq := (hc.rxDone hrx).2
    refine .renews _ ?_
    unfold Fwd.requeueStep
    split
    · simp [expected, exited_of_isExited htx, exited_of_rxIsExited hrx, hq, rxExpects, queuedRanges,
        Pipeline.txSent]
    · simp [expected, hq, rxExpects, queuedRanges, Pipeline.txSent]
  · cases hs

theorem forwarder_traffic (hc : Control f) (hno : ∀ ev, fa = .rx ev → awaited f = none)
    (hs : Forwarder.step cfg remote f fa = some g) : Traffic f fa g := by
  cases fa with
  | tx sent => exact tx_traffic hs
  | rx ev => exact rx_traffic (hno ev rfl) hs
  | requeue => exact requeue_traffic hc hs
  | push e
  | stop final
  | joined =>
    cases step_trans hs <;>
      exact .keeps _ _ (by simp) (sentBytes_nil (.inl (by simp))) rfl rfl rfl fun _ => rfl

end Traffic

section Linked

variable {cfg : Config disksize} {remote : File} {R : RefDisk} {s t : System disksize}
  {f g : Fwd disksize} {unread : List (Nat × Nat)} {rest : List UInt8}

/-- The reply to a remote read. -/
def replyTo (disksize : Nat) (remote : File) (r : Nat × Nat) : List UInt8 :=
  if r.1 + r.2 ≤ disksize then replyBytes 0 myhandle ++ slice remote r.1 r.2
  else replyBytes einval myhandle

/-- A remote read that may be sent, and whose reply the worker can count. -/
structure Countable (r : Nat × Nat) : Prop where
  sendable : Sendable r
  counted : r.2 + sizeofNbdReply < 2 ^ 31

/-- A connection on which `forwarder_rx` still waits for replies to its requests. -/
def Live (f : Fwd disksize) : Prop :=
  f.receivingFailed = false ∧ (f.sendingFailed = true → expected f ≠ [])

/-- The replies to the remote reads `wire` are under way, in order: those to the requests that
the worker has taken, unless it has ended. -/
def InStep (remote : File) (s : System disksize) (unread wire : List (Nat × Nat)) : Prop :=
  (∃ answered, wire = answered ++ unread ∧
    s.replies = answered.flatMap (replyTo disksize remote)) ∨
  s.serving = false ∧ s.replies <+: wire.flatMap (replyTo disksize remote)

/-- What is on the connection: the remote reads that the worker has not taken yet, with the
beginning of one whose send failed, and the replies on the way back. -/
structure Linked (remote : File) (s : System disksize) (unread : List (Nat × Nat))
    (rest : List UInt8) : Prop where
  requests : s.requests = unread.flatMap askFor ++ rest
  countable : ∀ r ∈ unread, Countable r
  short : rest.length < sizeofNbdRequest
  whole : s.proxy.fwd.sendingFailed = false → rest = []
  replies : Live s.proxy.fwd → ∃ wire, expected s.proxy.fwd <+: wire ∧
    (s.proxy.fwd.sendingFailed = false → wire = s.proxy.fwd.wire) ∧ InStep remote s unread wire

theorem InStep.prefix {wire : List (Nat × Nat)} (h : InStep remote s unread wire) :
    s.replies <+: wire.flatMap (replyTo disksize remote) := by
  rcases h with ⟨answered, rfl, hreplies⟩ | ⟨-, hprefix⟩
  · rw [hreplies, List.flatMap_append]
    exact List.prefix_append _ _
  · exact hprefix

/-- Everything that holds of the system between two steps. -/
structure Good (cfg : Config disksize) (remote : File) (R : RefDisk) (s : System disksize) :
    Prop where
  sound : Sound cfg remote R s.proxy
  disk : s.disk = remote
  linked : ∃ unread rest, Linked remote s unread rest

theorem start_good {cbitmap : Words} {cache : File}
    (h : cbitmap.length = bitsToLongs (getDiskNblocks disksize)) :
    Good cfg remote (refOf cbitmap cache remote)
      (start cbitmap cache remote : System disksize) where
  sound := start_sound h
  disk := rfl
  linked := ⟨[], [], rfl, by simp, by decide, fun _ => rfl, fun _ =>
    ⟨[], by simp [start, Proxy.start, initial, expected, rxExpects, queuedRanges, Pipeline.txSent],
      fun _ => rfl, .inl ⟨[], rfl, rfl⟩⟩⟩

theorem askFor_length (r : Nat × Nat) : (askFor r).length = sizeofNbdRequest := by
  simp [askFor, requestBytes, sizeofNbdRequest]

/-- The connection where nothing is sent on it. -/
theorem Linked.keeps (h : Linked remote s unread rest) (hw : WireInv g)
    (hwire : g.wire = s.proxy.fwd.wire) (hsf : g.sendingFailed = s.proxy.fwd.sendingFailed)
    (hrf : g.receivingFailed = s.proxy.fwd.receivingFailed)
    (hexpected : s.proxy.fwd.sendingFailed = true → expected g = expected s.proxy.fwd)
    (ht : t.proxy.fwd = g ∧ t.requests = s.requests ∧ t.replies = s.replies ∧
      t.serving = s.serving) : Linked remote t unread rest := by
  obtain ⟨rfl, hrequests, hreplies, hserving⟩ := ht
  refine ⟨hrequests.trans h.requests, h.countable, h.short, fun hf => h.whole (hsf ▸ hf), ?_⟩
  intro hlive
  have hlive' : Live s.proxy.fwd :=
    ⟨hrf ▸ hlive.1, fun hf => hexpected hf ▸ hlive.2 (hsf.trans hf)⟩
  obtain ⟨wire, hprefix, heq, hin⟩ := h.replies hlive'
  refine ⟨wire, ?_, fun hf => (heq (hsf ▸ hf)).trans hwire.symm, ?_⟩
  · cases hf : s.proxy.fwd.sendingFailed with
    | true => exact hexpected hf ▸ hprefix
    | false =>
      rw [(hw hlive.1).2 (hsf.trans hf), hwire, heq hf]
  · simpa only [InStep, hreplies, hserving] using hin

/-- A remote read is sent. -/
theorem Linked.sends {r : Nat × Nat} (h : Linked remote s unread rest)
    (hf : s.proxy.fwd.sendingFailed = false) (hr : Countable r) (hw : WireInv g)
    (hg : g.wire = s.proxy.fwd.wire ++ [r] ∧ g.sendingFailed = s.proxy.fwd.sendingFailed ∧
      g.receivingFailed = s.proxy.fwd.receivingFailed)
    (ht : t.proxy.fwd = g ∧ t.requests = s.requests ++ askFor r ∧ t.replies = s.replies ∧
      t.serving = s.serving) : Linked remote t (unread ++ [r]) [] := by
  obtain ⟨hwire, hsf, hrf⟩ := hg
  obtain ⟨rfl, hrequests, hreplies, hserving⟩ := ht
  constructor
  · rw [hrequests, h.requests, h.whole hf]
    simp
  · intro r' hr'
    rcases List.mem_append.mp hr' with hold | hnew
    · exact h.countable r' hold
    · rw [List.mem_singleton.mp hnew]
      exact hr
  · decide
  · exact fun _ => rfl
  · intro hlive
    have hlive' : Live s.proxy.fwd := ⟨hrf ▸ hlive.1, fun hf' => by simp [hf] at hf'⟩
    obtain ⟨wire, -, heq, hin⟩ := h.replies hlive'
    refine ⟨wire ++ [r], ?_, fun _ => by rw [hwire, heq hf], ?_⟩
    · rw [(hw hlive.1).2 (hsf.trans hf), hwire, heq hf]
    · rcases hin with ⟨answered, hcut, hin⟩ | ⟨hdead, hin⟩
      · exact .inl ⟨answered, by rw [hcut, List.append_assoc], hreplies.trans hin⟩
      · refine .inr ⟨hserving.trans hdead, ?_⟩
        rw [hreplies, List.flatMap_append]
        exact hin.trans (List.prefix_append _ _)

/-- A send fails, and a part of the request may have left. -/
theorem Linked.fails {part : List UInt8} (h : Linked remote s unread rest)
    (hshort : part.length < sizeofNbdRequest) (honce : s.proxy.fwd.sendingFailed = true → part = [])
    (hg : expected g <+: expected s.proxy.fwd ∧ g.sendingFailed = true ∧
      g.receivingFailed = s.proxy.fwd.receivingFailed)
    (ht : t.proxy.fwd = g ∧ t.requests = s.requests ++ part ∧ t.replies = s.replies ∧
      t.serving = s.serving) : Linked remote t unread (rest ++ part) := by
  obtain ⟨hexpected, hsf, hrf⟩ := hg
  obtain ⟨rfl, hrequests, hreplies, hserving⟩ := ht
  refine ⟨?_, h.countable, ?_, fun hf => by simp [hsf] at hf, fun hlive => ?_⟩
  · rw [hrequests, h.requests, List.append_assoc]
  · cases hf : s.proxy.fwd.sendingFailed with
    | true =>
      rw [honce hf, List.append_nil]
      exact h.short
    | false =>
      rw [h.whole hf, List.nil_append]
      exact hshort
  · have hlive' : Live s.proxy.fwd := by
      refine ⟨hrf ▸ hlive.1, fun _ hnil => hlive.2 hsf ?_⟩
      rw [hnil] at hexpected
      exact List.prefix_nil.mp hexpected
    obtain ⟨wire, hprefix, -, hin⟩ := h.replies hlive'
    refine ⟨wire, hexpected.trans hprefix, fun hf => by simp [hsf] at hf, ?_⟩
    simpa only [InStep, hreplies, hserving] using hin

/-- A new connection. -/
theorem linked_renews (hw : WireInv t.proxy.fwd) (hexpected : expected t.proxy.fwd = [])
    (ht : t.requests = [] ∧ t.replies = []) : Linked remote t [] [] := by
  obtain ⟨hrequests, hreplies⟩ := ht
  refine ⟨hrequests, by simp, by decide, fun _ => rfl, fun hlive => ⟨[], ?_, fun hf => ?_, ?_⟩⟩
  · rw [hexpected]
  · rw [← (hw hlive.1).2 hf, hexpected]
  · exact .inl ⟨[], rfl, hreplies⟩

end Linked

section Sending

variable {cfg : Config disksize} {remote : File} {R : RefDisk} {f : Fwd disksize}

/-- A request of a client whose remote reads, with their replies, fit an `int`. -/
def Modest (c : Call disksize) : Prop := c.request.iolen + 3 * cblocksize ≤ 2 ^ 31

instance (c : Call disksize) : Decidable (Modest c) := inferInstanceAs (Decidable (_ ≤ _))

/-- What `forwarder_tx` sends was prepared for a request that came in. -/
theorem sent_countable {p : Priv disksize} {i : Nat} {rr : ReadReq} (h : Coherent cfg remote R f)
    (hmodest : ∀ c ∈ f.entered, Modest c) (htx : f.tx = .send p i) (hrr : p.req[i]? = some rr)
    (hok : Sendable (remoteRange disksize rr)) : Countable (remoteRange disksize rr) := by
  have hmain := h.control.running (.inl (by simp [htx, TxPc.isExited]))
  have hdone : p.prepareDone = true := by simpa [htx, TxShape] using h.shape.held
  have hline : ready (txLine f) = p :: ready f.fwdTxQueue := by
    rw [txLine, htx, txHeld, List.singleton_append, ready_req_true _ hdone]
  have hpending : pending f = (f.fwdRetryQueue ++ rxLine f).map line ++
      line p :: (ready f.fwdTxQueue).map line := by
    rw [pending, pipe_running hmain, hline, List.map_append, List.map_cons]
  have hchain := h.order.chain
  rw [hpending] at hchain
  have hprepared := (Deferred.chain_mem hchain).1
  have hentered : p.call ∈ f.entered := by
    rw [h.order.entered, h.order.popped, h.order.prepared, hpending]
    simp [line]
  have hle := remoteRange_le cfg.size_max hprepared (List.mem_of_getElem? hrr)
  have hsmall := hmodest _ hentered
  refine ⟨hok, ?_⟩
  simp only [Modest, line, cblocksize, sizeofNbdReply] at hle hsmall ⊢
  omega

/-- The model's remote disk is looked at for the replies only. -/
theorem forwarder_remote (r₁ r₂ : File) {fa : Forwarder.Action disksize}
    (hno : ∀ ev, fa = .rx ev → awaited f = none) :
    Forwarder.step cfg r₁ f fa = Forwarder.step cfg r₂ f fa := by
  cases fa with
  | rx ev =>
    simp only [Forwarder.step, Fwd.rxStep]
    cases hrx : f.rx with
    | recv p mbr i =>
      cases hrr : p.req[i]? with
      | some rr =>
        have hawaited := hno ev rfl
        simp [awaited, hrx, hrr] at hawaited
      | none => simp only [hrr]
    | _ => rfl
  | _ => rfl

theorem apart_awaited {fa : Forwarder.Action disksize} (h : apart f (.fwd fa) = true) :
    ∀ ev, fa = .rx ev → awaited f = none := by
  rintro ev rfl
  simpa [apart] using h

theorem proxy_remote (r₁ r₂ : File) {s : State disksize} {a : Act disksize}
    (h : apart s.fwd a = true) : Proxy.step cfg r₁ s a = Proxy.step cfg r₂ s a := by
  unfold Proxy.step
  cases a with
  | fwd fa =>
    have hstep := @forwarder_remote _ cfg s.fwd r₁ r₂ fa (apart_awaited h)
    cases fa <;> simp only [fwdThread, hstep]
  | _ => rfl

theorem entered_grows {remote : File} {g : Fwd disksize} {fa : Forwarder.Action disksize}
    (h : Forwarder.step cfg remote f fa = some g) : f.entered <+: g.entered := by
  cases step_trans h with
  | pushReq c => exact List.prefix_append _ _
  | _ => exact List.prefix_refl _

end Sending

section Steps

variable {cfg : Config disksize} {pagesize : Nat} {remote : File} {R : RefDisk}
  {s t : System disksize} {e : Event disksize}

/-- What is on the connection after a step of the forwarder. -/
theorem traffic_linked {g : Fwd disksize} {fa : Forwarder.Action disksize} {cut : Nat}
    (h : Good cfg remote R s) (hmodest : ∀ c ∈ s.proxy.fwd.entered, Modest c) (hw : WireInv g)
    (hap : apart s.proxy.fwd (.fwd fa) = true) (ht : Traffic s.proxy.fwd fa g)
    (hg : t.proxy.fwd = g)
    (hbytes : fa = .requeue ∧ t.requests = [] ∧ t.replies = [] ∨ fa ≠ .requeue ∧
      t.requests = s.requests ++ sentBytes s.proxy.fwd fa cut ∧ t.replies = s.replies ∧
      t.serving = s.serving) : ∃ unread rest, Linked remote t unread rest := by
  obtain ⟨unread, rest, hlinked⟩ := h.linked
  cases ht with
  | sends p i rr htx hrr hok =>
    have hask : asking s.proxy.fwd = some (askFor (remoteRange disksize rr)) := by
      simp only [asking, htx, hrr, Option.bind_some, if_pos hok]
    have hf : s.proxy.fwd.sendingFailed = false := by simpa [apart, hask] using hap
    have hcount := sent_countable h.sound.coherent hmodest htx hrr hok
    obtain ⟨-, hrequests, hreplies, hserving⟩ := hbytes.resolve_left (by simp)
    simp only [sentBytes, hask, Option.getD_some] at hrequests
    exact ⟨_, _, hlinked.sends hf hcount hw ⟨rfl, rfl, rfl⟩ ⟨hg, hrequests, hreplies, hserving⟩⟩
  | fails p i rr htx hrr hok =>
    have hask : asking s.proxy.fwd = some (askFor (remoteRange disksize rr)) := by
      simp only [asking, htx, hrr, Option.bind_some, if_pos hok]
    obtain ⟨-, hrequests, hreplies, hserving⟩ := hbytes.resolve_left (by simp)
    refine ⟨_, _, hlinked.fails (g := t.proxy.fwd) ?_ ?_ ?_ ⟨rfl, hrequests, hreplies, hserving⟩⟩
    · simp only [sentBytes, hask, Option.getD_some]
      split
      · decide
      · have hlength := askFor_length (remoteRange disksize rr)
        have hcut := List.length_take_le cut (askFor (remoteRange disksize rr)).dropLast
        have hmost := List.length_take_le' cut (askFor (remoteRange disksize rr)).dropLast
        rw [List.length_dropLast, hlength] at hmost
        simp only [sizeofNbdRequest] at hmost ⊢
        omega
    · intro hf
      simp [sentBytes, hf]
    · rw [hg]
      refine ⟨?_, rfl, rfl⟩
      simp only [expected, if_true, List.append_nil]
      exact List.prefix_append _ _
  | renews g hexpected =>
    obtain ⟨-, hrequests, hreplies⟩ := hbytes.resolve_right (by simp)
    subst hg
    exact ⟨_, _, linked_renews hw hexpected ⟨hrequests, hreplies⟩⟩
  | keeps a g ha hsent hwire hsf hrf hexpected =>
    obtain ⟨-, hrequests, hreplies, hserving⟩ := hbytes.resolve_left (fun hb => ha hb.1)
    rw [hsent, List.append_nil] at hrequests
    exact ⟨_, _, hlinked.keeps hw hwire hsf hrf hexpected ⟨hg, hrequests, hreplies, hserving⟩⟩

theorem fwd_step {s t : State disksize} {fa : Forwarder.Action disksize}
    (h : Proxy.step cfg remote s (.fwd fa) = some t) :
    Forwarder.step cfg remote s.fwd fa = some t.fwd := by
  cases (step_move h).2 with
  | hand ev e k ps f hf hrx hk hps => exact hf
  | forward fa f hf ha hno => exact hf

theorem act_good {a : Act disksize} {cut : Nat} (h : Good cfg remote R s)
    (hmodest : ∀ c ∈ s.proxy.fwd.entered, Modest c) (ho : Linear.Orderly s.proxy a)
    (hap : apart s.proxy.fwd a = true) (hs : actStep cfg s a cut = some t) :
    Good cfg remote R t ∧ Proxy.step cfg remote s.proxy a = some t.proxy := by
  obtain ⟨p, hp, ht⟩ := Option.map_eq_some_iff.mp hs
  rw [proxy_remote _ remote hap] at hp
  have hsound := step_sound h.sound ho hp
  have hw := hsound.coherent.wire
  cases a with
  | fwd fa =>
    have htraffic := forwarder_traffic h.sound.coherent.control (apart_awaited hap) (fwd_step hp)
    have hlinks : ∀ t : System disksize, t.proxy = p →
        (fa = .requeue ∧ t.requests = [] ∧ t.replies = [] ∨ fa ≠ .requeue ∧
          t.requests = s.requests ++ sentBytes s.proxy.fwd fa cut ∧ t.replies = s.replies ∧
          t.serving = s.serving) → ∃ unread rest, Linked remote t unread rest :=
      fun t hproxy => traffic_linked h hmodest hw hap htraffic (by rw [hproxy])
    cases fa with
    | requeue =>
      subst ht
      exact ⟨⟨hsound, h.disk, hlinks _ rfl (.inl ⟨rfl, rfl, rfl⟩)⟩, hp⟩
    | _ =>
      subst ht
      exact ⟨⟨hsound, h.disk, hlinks _ rfl (.inr ⟨by simp, rfl, rfl, rfl⟩)⟩, hp⟩
  | _ =>
    subst ht
    refine ⟨⟨hsound, h.disk, ?_⟩, hp⟩
    obtain ⟨unread, rest, hlinked⟩ := h.linked
    rcases move_fwd (step_move hp).2 with heq | ⟨e, hf⟩ | ⟨fa, hfa, -⟩
    · exact ⟨unread, rest, hlinked.keeps hw (by rw [heq]) (by rw [heq]) (by rw [heq])
        (fun _ => by rw [heq]) ⟨rfl, rfl, rfl, rfl⟩⟩
    · cases forwarder_traffic h.sound.coherent.control (by simp) hf with
      | keeps a g ha hsent hwire hsf hrf hexpected =>
        exact ⟨unread, rest, hlinked.keeps hw hwire hsf hrf hexpected ⟨rfl, rfl, rfl, rfl⟩⟩
    · cases hfa

/-- Success behind a reply to a remote read takes its data and nothing else off the stream. -/
theorem reply_taken {r : Nat × Nat} {replies bytes left tail : List UInt8}
    (h : replies <+: replyTo disksize remote r ++ tail) (hlen : sizeofNbdReply ≤ replies.length)
    (hok : Success myhandle replies ∨ HighError myhandle replies)
    (hreplies : replies = replies.take sizeofNbdReply ++ (bytes ++ left))
    (hbytes : bytes.length = r.2) :
    bytes = slice remote r.1 r.2 ∧ replies = replyTo disksize remote r ++ left ∧ left <+: tail := by
  obtain ⟨later, hlater⟩ := h
  have htake : (replies.take sizeofNbdReply).length = sizeofNbdReply := by
    rw [List.length_take]
    omega
  rw [hreplies, List.append_assoc, List.append_assoc] at hlater
  unfold replyTo at hlater ⊢
  split at hlater
  · rename_i hin
    rw [List.append_assoc] at hlater
    obtain ⟨hhead, htail⟩ := List.append_inj hlater (by rw [htake, replyBytes_length])
    obtain ⟨hdata, hrest⟩ := List.append_inj htail (by rw [hbytes, slice_length])
    rw [if_pos hin]
    refine ⟨hdata, ?_, later, hrest⟩
    rw [hreplies, hhead, hdata, List.append_assoc]
  · -- a refusal is not taken for success
    obtain ⟨hhead, -⟩ := List.append_inj hlater (by rw [htake, replyBytes_length])
    have herror : errorOf (replies.take sizeofNbdReply) = 22 := by
      rw [hhead]
      decide
    rw [errorOf_take] at herror
    rcases hok with hok | hok
    · have hzero := hok.2
      omega
    · have hhigh := hok.2
      omega

theorem expected_cons {f g : Fwd disksize} {p : Priv disksize} {mbr : MmapBlockRegion} {i : Nat}
    {rr : ReadReq} (hrx : f.rx = .recv p mbr i) (hrr : p.req[i]? = some rr)
    (hn : p.needRetry = false) (hgrx : g.rx = .recv p mbr (i + 1))
    (hg : g.fwdRxQueue = f.fwdRxQueue ∧ g.tx = f.tx ∧ g.sendingFailed = f.sendingFailed) :
    expected f = remoteRange disksize rr :: expected g := by
  obtain ⟨hq, htx, hsf⟩ := hg
  have hdrop : p.req.drop i = rr :: p.req.drop (i + 1) := by
    obtain ⟨hi, hval⟩ := List.getElem?_eq_some_iff.mp hrr
    rw [List.drop_eq_getElem_cons hi, hval]
  simp [expected, hrx, hgrx, rxExpects, hn, hdrop, ranges, hq, hsf, htx]

theorem coherent_abort {f : Fwd disksize} (h : Coherent cfg remote R f) :
    Coherent cfg remote R f.abort := by
  have ht : Trans cfg remote f (.rx .reply) f.abort := .abort _
  exact
    { control := step_control h.control ht
      shape := step_shape h.control h.shape (show Pipeline.Orderly f (.rx .reply) from trivial) ht
      failing := step_failing h.control h.shape h.failing ht
      wire := step_wire h.control h.shape h.failing h.wire ht
      flushing := step_flushing h.flushing ht
      marking := step_marking cfg.size_max h.control h.shape h.marking ht
      order := step_order cfg.size_max h.control h.shape h.failing h.flushing h.marking h.order ht
      contents := step_contents cfg.size_max h.control h.failing h.wire h.flushing h.order
        h.contents ht
      numbered := step_numbered h.control h.failing h.flushing h.order h.numbered ht }

theorem proxy_receives {s : State disksize} {p : Priv disksize} {mbr : MmapBlockRegion} {i : Nat}
    {rr : ReadReq} {ev : RecvEvent} {g : Fwd disksize} (hdead : s.dead = false)
    (hrx : s.fwd.rx = .recv p mbr i) (hrr : p.req[i]? = some rr)
    (hg : Fwd.rxRecv remote s.fwd p mbr i rr ev = some g) :
    Proxy.step cfg remote s (.fwd (.rx ev)) = some { s with fwd := g } := by
  have halive : s.fwd.aborted = false := by
    simp only [State.dead, Bool.or_eq_false_iff] at hdead
    exact hdead.1.1
  have hstep : Forwarder.step cfg remote s.fwd (.rx ev) = some g := by
    simp only [Forwarder.step, halive, Fwd.rxStep, hrx, hrr, Bool.false_eq_true, if_false, hg]
  simp only [Proxy.step, hdead, Bool.false_eq_true, if_false, fwdThread, hstep, Option.map_some,
    handing, hrx]

/-- A reply comes in that was not stored as success, or on a connection that has failed. -/
theorem linked_failed (h : ∃ unread rest, Linked remote s unread rest)
    (hdoomed : ¬Live t.proxy.fwd) (hsf : t.proxy.fwd.sendingFailed = s.proxy.fwd.sendingFailed)
    (hrequests : t.requests = s.requests) : ∃ unread rest, Linked remote t unread rest := by
  obtain ⟨unread, rest, h⟩ := h
  exact ⟨unread, rest, hrequests.trans h.requests, h.countable, h.short,
    fun hf => h.whole (hsf ▸ hf), fun hlive => absurd hlive hdoomed⟩

/-- The reply that the forwarder waits for comes in. -/
theorem Linked.receives {unread : List (Nat × Nat)} {rest bytes left : List UInt8}
    {p : Priv disksize} {mbr : MmapBlockRegion} {i : Nat} {rr : ReadReq}
    (h : Linked remote s unread rest) (hlive : Live s.proxy.fwd)
    (hrx : s.proxy.fwd.rx = .recv p mbr i) (hrr : p.req[i]? = some rr) (hn : p.needRetry = false)
    (hlen : sizeofNbdReply ≤ s.replies.length)
    (hok : Success myhandle s.replies ∨ HighError myhandle s.replies)
    (hreplies : s.replies = s.replies.take sizeofNbdReply ++ (bytes ++ left))
    (hbytes : bytes.length = (remoteRange disksize rr).2)
    (hfwd : t.proxy.fwd.rx = .recv p mbr (i + 1) ∧
      t.proxy.fwd.fwdRxQueue = s.proxy.fwd.fwdRxQueue ∧ t.proxy.fwd.tx = s.proxy.fwd.tx ∧
      t.proxy.fwd.sendingFailed = s.proxy.fwd.sendingFailed ∧
      t.proxy.fwd.wire = s.proxy.fwd.wire.tail)
    (ht : t.requests = s.requests ∧ t.replies = left ∧ t.serving = s.serving) :
    bytes = slice remote (remoteRange disksize rr).1 (remoteRange disksize rr).2 ∧
      Linked remote t unread rest := by
  obtain ⟨hgrx, hgq, hgtx, hgs, hgw⟩ := hfwd
  obtain ⟨hrequests, hleft, hserving⟩ := ht
  have hcons := expected_cons hrx hrr hn hgrx ⟨hgq, hgtx, hgs⟩
  obtain ⟨wire, ⟨later, hwire⟩, heq, hin⟩ := h.replies hlive
  rw [hcons, List.cons_append] at hwire
  have hprefix := hin.prefix
  rw [← hwire, List.flatMap_cons] at hprefix
  obtain ⟨hdata, hreply, hmore⟩ := reply_taken hprefix hlen hok hreplies hbytes
  refine ⟨hdata, hrequests.trans h.requests, h.countable, h.short, fun hf => h.whole (hgs ▸ hf),
    fun _ => ⟨_, List.prefix_append _ later, fun hf => ?_, ?_⟩⟩
  · rw [hgw, ← heq (hgs ▸ hf), ← hwire, List.tail_cons]
  · rcases hin with ⟨answered, hcut, hall⟩ | ⟨hdead, -⟩
    · cases answered with
      | nil =>
        rw [hall] at hlen
        simp [sizeofNbdReply] at hlen
      | cons r answered =>
        rw [← hwire, List.cons_append, List.cons.injEq] at hcut
        refine .inl ⟨answered, hcut.2, ?_⟩
        rw [hall, List.flatMap_cons, ← hcut.1] at hreply
        rw [hleft]
        exact (List.append_cancel_left hreply).symm
    · exact .inr ⟨hserving.trans hdead, hleft ▸ hmore⟩

/-- What receiving a reply comes to. -/
inductive Reception (f : Fwd disksize) (replies : List UInt8) (p : Priv disksize)
    (mbr : MmapBlockRegion) (i : Nat) (rr : ReadReq) : Fwd disksize → List UInt8 → Prop where
  | aborts : Reception f replies p mbr i rr f.abort replies
  | fails (bytes left : List UInt8) (hle : bytes.length ≤ (remoteRange disksize rr).2) :
      Reception f replies p mbr i rr
        { f with
          cache := store f.cache (remoteRange disksize rr).1 bytes
          receivingFailed := true
          rx := .recv p mbr p.req.length } left
  | stores (bytes left : List UInt8) (hbytes : bytes.length = (remoteRange disksize rr).2)
      (hsmall : (remoteRange disksize rr).2 < 2 ^ 31) (hlen : sizeofNbdReply ≤ replies.length)
      (hok : Success myhandle replies ∨ HighError myhandle replies)
      (hreplies : replies = replies.take sizeofNbdReply ++ (bytes ++ left)) :
      Reception f replies p mbr i rr
        { f with
          cache := store f.cache (remoteRange disksize rr).1 bytes
          rx := .recv p mbr (i + 1) } left

theorem dropAnswered_eq {f : Fwd disksize} {p : Priv disksize} {mbr : MmapBlockRegion} {i : Nat}
    {rr : ReadReq} (hrx : f.rx = .recv p mbr i) (hrr : p.req[i]? = some rr) (g : Fwd disksize) :
    dropAnswered f g = if g.aborted || g.receivingFailed || p.needRetry then g
      else { g with wire := g.wire.tail } := by
  simp only [dropAnswered, awaited, hrx, hrr, Option.map_some]

theorem awaited_some {f : Fwd disksize} {p : Priv disksize} {mbr : MmapBlockRegion} {i : Nat}
    {rr : ReadReq} (h : awaited f = some (p, mbr, i, rr)) :
    f.rx = .recv p mbr i ∧ p.req[i]? = some rr := by
  unfold awaited at h
  split at h
  · rename_i p' mbr' i' hrx
    obtain ⟨rr', hrr, heq⟩ := Option.map_eq_some_iff.mp h
    cases heq
    exact ⟨hrx, hrr⟩
  · cases h

/-- The replies are stored in the cache file at the offsets that were asked for. -/
theorem receiveStep_reception {f : Fwd disksize} {replies : List UInt8} {head body : List Int}
    {l : Link disksize} (h : Contents cfg remote R f)
    (hl : receiveStep ⟨f, replies, []⟩ head body = some l) :
    ∃ p mbr i rr, f.rx = .recv p mbr i ∧ p.req[i]? = some rr ∧
      Reception f replies p mbr i rr l.fwd l.stream := by
  simp only [receiveStep] at hl
  split at hl
  · rename_i p mbr i rr hawaited
    obtain ⟨hrx, hrr⟩ := awaited_some hawaited
    refine ⟨p, mbr, i, rr, hrx, hrr, ?_⟩
    obtain ⟨-, hbuf, hfrom⟩ := mmapBlockRegionCreate_pointers (h.mapped p mbr i hrx)
    have hplace : mbr.baIobuf + (((remoteRange disksize rr).1 : Int) - mbr.baIofrom) =
        ((remoteRange disksize rr).1 : Nat) := by omega
    rw [hplace] at hl
    split at hl
    · rename_i hlen
      obtain ⟨m, hm, rfl⟩ := Option.map_eq_some_iff.mp hl
      obtain ⟨bytes, hstores, hle, hok⟩ := nbdClientRecvReadReply_stores hlen hm
      have hcache : storeAll f.cache m.stores =
          store f.cache (remoteRange disksize rr).1 bytes := by
        rw [hstores]
        exact storeAll_cells f.cache hle
      by_cases hneg : m.ret < 0
      · simp only [afterReceive, hcache, if_pos hneg]
        exact .fails bytes m.rest hle
      · obtain ⟨hsmall, hbytes, hret, hreply, hstream⟩ := hok hneg
        simp only [afterReceive, hcache, if_neg hneg]
        exact .stores bytes m.rest hbytes hsmall hreply
          (nbdClientRecvReadReplyIov_header hm (.inr hret)) hstream
    · cases hl
      exact .aborts
  · cases hl

/-- Receiving a reply is one of the receptions of the forwarder's model, unless an assertion
ends the proxy. -/
theorem receive_good {head body : List Int} (h : Good cfg remote R s)
    (hs : step cfg pagesize s (.receive head body) = some t) :
    Good cfg remote R t ∧ (t.proxy.fwd.aborted = false →
      ∃ ev, Proxy.step cfg remote s.proxy (.fwd (.rx ev)) = some t.proxy) := by
  simp only [step] at hs
  split at hs
  · cases hs
  rename_i hdead
  have hdead : s.proxy.dead = false := by simpa using hdead
  have halive : s.proxy.fwd.aborted = false := by
    simp only [State.dead, Bool.or_eq_false_iff] at hdead
    exact hdead.1.1
  obtain ⟨l, hl, ht⟩ := Option.map_eq_some_iff.mp hs
  have hcoherent := h.sound.coherent
  obtain ⟨p, mbr, i, rr, hrx, hrr, hreception⟩ := receiveStep_reception hcoherent.contents hl
  obtain ⟨unread, rest, hlinked⟩ := h.linked
  -- the events of the model name the place by the pointers of the mapping
  have hplace : ∀ bytes, store s.proxy.fwd.cache
      (mbr.baIobuf + (((remoteRange disksize rr).1 : Int) - mbr.baIofrom)).toNat bytes =
        store s.proxy.fwd.cache (remoteRange disksize rr).1 bytes := fun bytes => by
    rw [hcoherent.contents.place hrx]
  have hgood : ∀ ev g, Fwd.rxRecv remote s.proxy.fwd p mbr i rr ev = some g →
      t.proxy = { s.proxy with fwd := g } → (∃ unread rest, Linked remote t unread rest) →
      Good cfg remote R t ∧ ∃ ev, Proxy.step cfg remote s.proxy (.fwd (.rx ev)) = some t.proxy := by
    intro ev g hg hproxy hlinked
    have hstep := @proxy_receives _ cfg _ _ _ _ _ _ _ _ hdead hrx hrr hg
    rw [← hproxy] at hstep
    have hdisk : t.disk = s.disk := by rw [← ht]
    exact ⟨⟨step_sound h.sound (show Linear.Orderly s.proxy (.fwd (.rx ev)) from trivial) hstep,
      hdisk.trans h.disk, hlinked⟩, ev, hstep⟩
  rw [dropAnswered_eq hrx hrr] at ht
  generalize l.fwd = g at hreception ht
  generalize l.stream = left at hreception ht
  cases hreception with
  | aborts =>
    simp only [Fwd.abort, Bool.true_or, if_true] at ht
    subst ht
    have hdelivery : Delivery { s.proxy with fwd := s.proxy.fwd.abort } := fun k ps hps =>
      have hd := h.sound.delivery k ps hps
      ⟨hd.handed, hd.own, hd.queue⟩
    refine ⟨⟨⟨coherent_abort hcoherent, hdelivery⟩, h.disk, unread, rest, ?_⟩, by simp⟩
    exact hlinked.keeps (g := s.proxy.fwd.abort) (coherent_abort hcoherent).wire rfl rfl rfl
      (fun _ => rfl) ⟨rfl, rfl, rfl, rfl⟩
  | fails bytes left hle =>
    simp only [Bool.or_true, Bool.true_or, if_true] at ht
    subst ht
    refine (hgood (.failed bytes) _ ?_ rfl ?_).imp id fun hstep _ => hstep
    · simp only [Fwd.rxRecv, if_pos hle, hplace]
    · refine linked_failed h.linked ?_ rfl rfl
      rintro ⟨hrf, -⟩
      cases hrf
  | stores bytes left hbytes hsmall hlen hok hreplies =>
    dsimp only at ht
    by_cases hstray : s.proxy.fwd.receivingFailed = true ∨ p.needRetry = true
    · -- nothing is waited for any more
      have hcond : (s.proxy.fwd.aborted || s.proxy.fwd.receivingFailed || p.needRetry) = true := by
        simpa [halive] using hstray
      rw [if_pos hcond] at ht
      subst ht
      refine (hgood (.stray bytes) _ ?_ rfl ?_).imp id fun hstep _ => hstep
      · have hout : p.needRetry = true ∨ s.proxy.fwd.receivingFailed = true ∨
            s.proxy.fwd.wire.head? ≠ some (remoteRange disksize rr) := by
          rcases hstray with hf | hn
          · exact .inr (.inl hf)
          · exact .inl hn
        have hcond := And.intro hout (And.intro hbytes hsmall)
        simp only [Fwd.rxRecv, hplace, if_pos hcond]
      · refine linked_failed h.linked ?_ rfl rfl
        rintro ⟨hrf, hexpects⟩
        have hn : p.needRetry = true := hstray.resolve_left (by simpa using hrf)
        have hsent := hcoherent.failing.sent p (by simp [rxLine, hrx, rxHeld]) hn
        have hnil := expected_doomed hcoherent.failing hrx hn
        refine hexpects hsent ?_
        simpa [expected, hrx, rxExpects, hn] using hnil
    · obtain ⟨hrf, hn⟩ : s.proxy.fwd.receivingFailed = false ∧ p.needRetry = false := by
        simpa using hstray
      have hcond : ¬(s.proxy.fwd.aborted || s.proxy.fwd.receivingFailed || p.needRetry) = true := by
        simp [halive, hrf, hn]
      rw [if_neg hcond] at ht
      have hhead := hcoherent.wire.in_step hrx hrr hn hrf
      have hlive : Live s.proxy.fwd := by
        refine ⟨hrf, fun _ => ?_⟩
        rw [expected_cons (g := { s.proxy.fwd with rx := .recv p mbr (i + 1) }) hrx hrr hn rfl
          ⟨rfl, rfl, rfl⟩]
        simp
      have hfwd : t.proxy.fwd = { s.proxy.fwd with
          cache := store s.proxy.fwd.cache (remoteRange disksize rr).1 bytes
          rx := .recv p mbr (i + 1)
          wire := s.proxy.fwd.wire.tail } := by rw [← ht]
      obtain ⟨hdata, hlinks⟩ := hlinked.receives (t := t) hlive hrx hrr hn hlen hok hreplies hbytes
        ⟨by rw [hfwd], by rw [hfwd], by rw [hfwd], by rw [hfwd], by rw [hfwd]⟩
        ⟨by rw [← ht], by rw [← ht], by rw [← ht]⟩
      refine (hgood .reply _ ?_ (by rw [← ht]) ⟨unread, rest, hlinks⟩).imp id fun hstep _ => hstep
      have hcond := And.intro hhead hsmall
      simp only [Fwd.rxRecv, hplace, hdata, if_pos hcond]

end Steps

section Serving

variable {cfg : Config disksize} {pagesize : Nat} {remote : File} {R : RefDisk}
  {s t : System disksize} {calls : Calls} {unread : List (Nat × Nat)} {rest : List UInt8}

/-- What `nbd_server_recv_request` makes of a remote read. -/
theorem nbdServerRecvRequest_ask {r : Nat × Nat} (hr : Sendable r) :
    nbdServerRecvRequest disksize (askFor r) =
      if r.1 + r.2 ≤ disksize then .ok .read r.1 r.2 myhandle else .badRequest einval myhandle := by
  obtain ⟨hlen, hsum⟩ := hr
  simp only [offMax] at hsum
  have hbytes := ofBytes_requestBytes (show iotypeCode .read < 2 ^ 32 by decide)
    (show r.1 < 2 ^ 64 by omega) hlen (show myhandle < 2 ^ 64 by decide)
  have hsize : ¬(askFor r).length < sizeofNbdRequest := by
    rw [askFor_length]
    omega
  have hread : Iotype.ofCode (iotypeCode .read) = .read := by decide
  have hback : toInt64 r.1 = r.1 := toInt64_of_range (by omega) (by omega)
  have hmod : (r.1 + r.2) % 2 ^ 64 = r.1 + r.2 := Nat.mod_eq_of_lt (by omega)
  rw [nbdServerRecvRequest, if_neg hsize, askFor, hbytes]
  simp only [hread, hback, hmod, ne_eq, not_true_eq_false, if_false, reduceCtorEq, false_and]
  by_cases hin : r.1 + r.2 ≤ disksize
  · rw [if_neg (by omega), if_pos hin]
  · rw [if_pos (by omega), if_neg hin]

/-- The worker takes a remote read for what it is, or refuses it. -/
theorem nextRequest_ask {r : Nat × Nat} (hr : Sendable r) (calls : Calls) (tail : List UInt8) :
    (r.1 + r.2 ≤ disksize ∧ ∃ q : Query disksize,
      nextRequest disksize calls (askFor r ++ tail) = .asks q tail ∧ q.request.iotype = .read ∧
        q.request.iofrom = r.1 ∧ q.request.iolen = r.2 ∧ q.handle = myhandle) ∨
    (¬r.1 + r.2 ≤ disksize ∧
      nextRequest disksize calls (askFor r ++ tail) = .refuses einval myhandle tail) := by
  have hlength := askFor_length r
  have henough : ¬(askFor r ++ tail).length < sizeofNbdRequest := by
    rw [List.length_append]
    omega
  have htake : (askFor r ++ tail).take sizeofNbdRequest = askFor r := by
    rw [← hlength, List.take_left]
  have hdrop : (askFor r ++ tail).drop sizeofNbdRequest = tail := by
    rw [← hlength, List.drop_left]
  have hparse := @nbdServerRecvRequest_ask disksize r hr
  unfold nextRequest
  rw [if_neg henough, hdrop]
  dsimp only
  split
  all_goals
    rename_i h
    rw [htake, hparse] at h
    split at h
  · rename_i hin
    cases h
    exact .inl ⟨hin, _, rfl, rfl, rfl, rfl, rfl⟩
  · cases h
  · cases h
  · rename_i hout
    cases h
    exact .inr ⟨hout, rfl⟩
  · cases h
  · cases h
  · cases h
  · cases h

theorem Linked.serves {r : Nat × Nat} (h : Linked remote s (r :: unread) rest)
    (hserving : s.serving = true) (ht : t.proxy = s.proxy ∧
      t.requests = unread.flatMap askFor ++ rest ∧
      t.replies = s.replies ++ replyTo disksize remote r) : Linked remote t unread rest := by
  obtain ⟨hproxy, hrequests, hreplies⟩ := ht
  refine ⟨hrequests, fun r' hr' => h.countable r' (List.mem_cons_of_mem _ hr'), h.short,
    hproxy ▸ h.whole, ?_⟩
  rw [hproxy]
  intro hlive
  obtain ⟨wire, hprefix, heq, ⟨answered, hcut, hall⟩ | ⟨hdead, -⟩⟩ := h.replies hlive
  · refine ⟨wire, hprefix, heq, .inl ⟨answered ++ [r], by rw [hcut, List.append_assoc]; rfl, ?_⟩⟩
    rw [hreplies, hall, List.flatMap_append]
    simp
  · rw [hserving] at hdead
    cases hdead

/-- The worker ends behind the beginning of a reply. -/
theorem Linked.breaks {part : List UInt8} (h : Linked remote s unread rest)
    (hserving : s.serving = true) (hpart : part <+: unread.flatMap (replyTo disksize remote))
    (ht : t.proxy = s.proxy ∧ t.requests = s.requests ∧ t.replies = s.replies ++ part ∧
      t.serving = false) : Linked remote t unread rest := by
  obtain ⟨hproxy, hrequests, hreplies, hended⟩ := ht
  refine ⟨hrequests.trans h.requests, h.countable, h.short, hproxy ▸ h.whole, ?_⟩
  rw [hproxy]
  intro hlive
  obtain ⟨wire, hprefix, heq, ⟨answered, hcut, hall⟩ | ⟨hdead, -⟩⟩ := h.replies hlive
  · refine ⟨wire, hprefix, heq, .inr ⟨hended, ?_⟩⟩
    rw [hreplies, hall, hcut, List.flatMap_append]
    exact (List.prefix_append_right_inj _).mpr hpart
  · rw [hserving] at hdead
    cases hdead

/-- The worker has nothing to read but the beginning of a request. -/
theorem nextRequest_waits (h : rest.length < sizeofNbdRequest) (calls : Calls) :
    nextRequest disksize calls rest = .waits := by
  unfold nextRequest
  rw [if_pos h]

theorem flatOut_read {q : Query disksize} {r : Nat × Nat} (hin : r.1 + r.2 ≤ disksize)
    (hio : q.request.iotype = .read) (hfrom : q.request.iofrom = r.1) (hlen : q.request.iolen = r.2)
    (hhandle : q.handle = myhandle) : flatOut remote q = replyTo disksize remote r := by
  have hstart : q.request.start = r.1 := by
    rw [Request.start, hfrom, Int.toNat_natCast]
  simp only [flatOut, flatReply, hio, hhandle, hstart, hlen, replyTo, if_pos hin]

/-- What the worker reads next. -/
theorem Linked.next (h : Linked remote s unread rest) (calls : Calls) :
    (unread = [] ∧ nextRequest disksize calls s.requests = .waits) ∨
    ∃ r more, unread = r :: more ∧ ((r.1 + r.2 ≤ disksize ∧ ∃ q : Query disksize,
        nextRequest disksize calls s.requests = .asks q (more.flatMap askFor ++ rest) ∧
        flatOut remote q = replyTo disksize remote r ∧
        ∀ pagesize, targetModeMainMmap pagesize remote q = some (remote, flatOut remote q)) ∨
      (replyTo disksize remote r = replyBytes einval myhandle ∧
        nextRequest disksize calls s.requests =
          .refuses einval myhandle (more.flatMap askFor ++ rest))) := by
  rw [h.requests]
  cases unread with
  | nil =>
    rw [List.flatMap_nil, List.nil_append]
    exact .inl ⟨rfl, nextRequest_waits h.short calls⟩
  | cons r more =>
    have hr := h.countable r List.mem_cons_self
    rw [List.flatMap_cons, List.append_assoc]
    refine .inr ⟨r, more, rfl, ?_⟩
    rcases @nextRequest_ask disksize r hr.sendable calls (more.flatMap askFor ++ rest) with
      ⟨hin, q, hnext, hio, hfrom, hlen, hhandle⟩ | ⟨hout, hnext⟩
    · refine .inl ⟨hin, q, hnext, flatOut_read hin hio hfrom hlen hhandle, fun pagesize => ?_⟩
      rw [SessionDisk.target_read_round pagesize remote hio (by omega)
        (by rw [hlen]; exact hr.counted)]
      simp only [flatOut, flatReply, hio]
    · exact .inr ⟨by rw [replyTo, if_neg hout], hnext⟩

theorem serve_good (h : Good cfg remote R s)
    (hs : step cfg pagesize s (.serve calls) = some t) :
    Good cfg remote R t ∧ t.proxy = s.proxy := by
  simp only [step] at hs
  split at hs
  · rename_i hserving
    obtain ⟨unread, rest, hlinked⟩ := h.linked
    rcases hlinked.next calls with ⟨-, hnext⟩ |
      ⟨r, more, rfl, ⟨hin, q, hnext, hout, hround⟩ | ⟨hrefused, hnext⟩⟩
    · simp only [serve, hnext] at hs
      cases hs
    · simp only [serve, hnext, h.disk, hround, hout, Option.map_some, Option.some.injEq] at hs
      subst hs
      exact ⟨⟨h.sound, rfl, more, rest, hlinked.serves hserving ⟨rfl, rfl, rfl⟩⟩, rfl⟩
    · simp only [serve, hnext, Option.some.injEq] at hs
      subst hs
      exact ⟨⟨h.sound, h.disk, more, rest,
        hlinked.serves hserving ⟨rfl, rfl, by rw [hrefused]⟩⟩, rfl⟩
  · cases hs

theorem breakOff_good {cut : Nat} (h : Good cfg remote R s)
    (hs : step cfg pagesize s (.breakOff calls cut) = some t) :
    Good cfg remote R t ∧ t.proxy = s.proxy := by
  simp only [step] at hs
  split at hs
  · rename_i hserving
    obtain ⟨unread, rest, hlinked⟩ := h.linked
    have hnothing : Linked remote { s with serving := false } unread rest :=
      hlinked.breaks hserving List.nil_prefix ⟨rfl, rfl, (List.append_nil _).symm, rfl⟩
    rcases hlinked.next calls with ⟨-, hnext⟩ |
      ⟨r, more, rfl, ⟨hin, q, hnext, hout, -⟩ | ⟨-, hnext⟩⟩
    · simp only [breakOff, hnext, Option.some.injEq] at hs
      subst hs
      exact ⟨⟨h.sound, h.disk, unread, rest, hnothing⟩, rfl⟩
    · simp only [breakOff, hnext, h.disk, hout, Option.some.injEq] at hs
      subst hs
      have hpart : (replyTo disksize remote r).take cut <+:
          (r :: more).flatMap (replyTo disksize remote) := by
        rw [List.flatMap_cons]
        exact (List.take_prefix _ _).trans (List.prefix_append _ _)
      exact ⟨⟨h.sound, rfl, r :: more, rest, hlinked.breaks hserving hpart ⟨rfl, rfl, rfl, rfl⟩⟩,
        rfl⟩
    · simp only [breakOff, hnext, Option.some.injEq] at hs
      subst hs
      exact ⟨⟨h.sound, h.disk, r :: more, rest, hnothing⟩, rfl⟩
  · cases hs

end Serving

section Runs

variable {cfg : Config disksize} {pagesize : Nat} {remote cache : File} {cbitmap : Words}
  {R : RefDisk} {s t : System disksize} {e : Event disksize} {events : List (Event disksize)}

/-- A run of the proxy's own model comes to this state. -/
def Reached (cfg : Config disksize) (remote cache : File) (cbitmap : Words) (p : State disksize) :
    Prop :=
  ∃ acts, Along (Proxy.step cfg remote) Linear.Orderly (Proxy.start cbitmap cache) acts ∧
    run (Proxy.step cfg remote) (Proxy.start cbitmap cache) acts = some p

theorem Reached.step {p q : State disksize} {a : Act disksize}
    (h : Reached cfg remote cache cbitmap p) (ho : Linear.Orderly p a)
    (hs : Proxy.step cfg remote p a = some q) : Reached cfg remote cache cbitmap q := by
  obtain ⟨acts, halong, hrun⟩ := h
  refine ⟨acts ++ [a], along_join halong hrun ⟨ho, fun _ _ => trivial⟩, ?_⟩
  exact run_join hrun (by rw [run_cons, hs]; rfl)

theorem step_entered (hs : step cfg pagesize s e = some t) :
    s.proxy.fwd.entered <+: t.proxy.fwd.entered := by
  cases e with
  | serve calls =>
    simp only [step, serve] at hs
    split at hs
    · split at hs
      · cases hs
      · cases hs
        exact List.prefix_refl _
      · cases hs
        exact List.prefix_refl _
      · obtain ⟨p, -, rfl⟩ := Option.map_eq_some_iff.mp hs
        exact List.prefix_refl _
    · cases hs
  | breakOff calls cut =>
    simp only [step, breakOff] at hs
    split at hs
    · cases hs
      split <;> exact List.prefix_refl _
    · cases hs
  | receive head body =>
    simp only [step] at hs
    split at hs
    · cases hs
    obtain ⟨l, hl, rfl⟩ := Option.map_eq_some_iff.mp hs
    have hentered : l.fwd.entered = s.proxy.fwd.entered := by
      simp only [receiveStep] at hl
      split at hl
      · split at hl
        · obtain ⟨m, -, rfl⟩ := Option.map_eq_some_iff.mp hl
          simp only [afterReceive]
          split <;> rfl
        · cases hl
          rfl
      · cases hl
    have hdrop : ∀ f g : Fwd disksize, (dropAnswered f g).entered = g.entered := by
      intro f g
      unfold dropAnswered
      split
      · split <;> rfl
      · rfl
    simp only [hdrop, hentered]
    exact List.prefix_refl _
  | act a cut =>
    simp only [step] at hs
    split at hs
    · obtain ⟨p, hp, rfl⟩ := Option.map_eq_some_iff.mp hs
      have hgrows : s.proxy.fwd.entered <+: p.fwd.entered := by
        rcases move_fwd (step_move hp).2 with heq | ⟨e, hf⟩ | ⟨fa, -, hf⟩
        · rw [heq]
        · exact entered_grows hf
        · exact entered_grows hf
      cases a with
      | fwd fa => cases fa <;> exact hgrows
      | _ => exact hgrows
    · cases hs

/-- A step keeps the connection in order, and the proxy's part of it is one of its own steps. -/
theorem step_good (hs : step cfg pagesize s e = some t) (ho : Orderly s e)
    (hmodest : ∀ c ∈ s.proxy.fwd.entered, Modest c)
    (h : Good cfg remote R s ∧
      (s.proxy.fwd.aborted = false → Reached cfg remote cache cbitmap s.proxy)) :
    Good cfg remote R t ∧
      (t.proxy.fwd.aborted = false → Reached cfg remote cache cbitmap t.proxy) := by
  obtain ⟨hgood, hreached⟩ := h
  have hlive : ∀ {a q}, Proxy.step cfg remote s.proxy a = some q → s.proxy.fwd.aborted = false := by
    intro a q hq
    have hdead := (step_move hq).1
    simp only [State.dead, Bool.or_eq_false_iff] at hdead
    exact hdead.1.1
  cases e with
  | serve calls =>
    obtain ⟨hgood', hproxy⟩ := serve_good hgood hs
    exact ⟨hgood', hproxy ▸ hreached⟩
  | breakOff calls cut =>
    obtain ⟨hgood', hproxy⟩ := breakOff_good hgood hs
    exact ⟨hgood', hproxy ▸ hreached⟩
  | receive head body =>
    obtain ⟨hgood', hstep⟩ := receive_good hgood hs
    refine ⟨hgood', fun halive => ?_⟩
    obtain ⟨ev, hq⟩ := hstep halive
    exact (hreached (hlive hq)).step (show Linear.Orderly s.proxy (.fwd (.rx ev)) from trivial) hq
  | act a cut =>
    simp only [step] at hs
    split at hs
    · rename_i hap
      obtain ⟨hgood', hq⟩ := act_good hgood hmodest ho hap hs
      exact ⟨hgood', fun _ => (hreached (hlive hq)).step ho hq⟩
    · cases hs

theorem run_good (hlen : cbitmap.length = bitsToLongs (getDiskNblocks disksize))
    (ho : Along (step cfg pagesize) Orderly (start cbitmap cache remote) events)
    (hrun : run (step cfg pagesize) (start cbitmap cache remote) events = some s)
    (hmodest : ∀ c ∈ s.proxy.fwd.entered, Modest c) :
    Good cfg remote (refOf cbitmap cache remote) s ∧
      (s.proxy.fwd.aborted = false → Reached cfg remote cache cbitmap s.proxy) := by
  refine run_invariant (I := fun s => (∀ c ∈ s.proxy.fwd.entered, Modest c) →
    Good cfg remote (refOf cbitmap cache remote) s ∧
      (s.proxy.fwd.aborted = false → Reached cfg remote cache cbitmap s.proxy))
    ?_ (fun _ => ⟨start_good hlen, fun _ => ⟨[], trivial, rfl⟩⟩) ho hrun hmodest
  intro s e t hI ho hs hmodest
  have hbefore : ∀ c ∈ s.proxy.fwd.entered, Modest c :=
    fun c hc => hmodest c ((step_entered hs).subset hc)
  exact step_good hs ho hbefore (hI hbefore)

/-- The target server of this repository is the remote server that the proxy relies on. With
it at the other end of the connection, whatever fails there and however the streams are cut,
the proxy behaves as with a remote disk that answers in order, the replies of its sessions
follow one order of their requests, and the remote disk is never written. -/
theorem proxy_over_target (cfg : Config disksize) (pagesize : Nat) (remote cache : File)
    (cbitmap : Words) (hlen : cbitmap.length = bitsToLongs (getDiskNblocks disksize))
    (events : List (Event disksize))
    (ho : Along (step cfg pagesize) Orderly (start cbitmap cache remote) events)
    (s : System disksize)
    (hrun : run (step cfg pagesize) (start cbitmap cache remote) events = some s)
    (hmodest : ∀ c ∈ s.proxy.fwd.entered, Modest c) :
    s.disk = remote ∧
      (s.proxy.fwd.aborted = false → Reached cfg remote cache cbitmap s.proxy) ∧
      s.proxy.fwd.executed <+: s.proxy.fwd.entered ∧
      (∀ k ps, s.proxy.sessions[k]? = some ps →
        Linearizes (refOf cbitmap cache remote) s.proxy.fwd.executed k ps.replied) ∧
      (s.proxy.fwd.sendingFailed = false → s.proxy.fwd.receivingFailed = false →
        s.serving = true → ∃ answered unread, s.proxy.fwd.wire = answered ++ unread ∧
          s.replies = answered.flatMap (replyTo disksize remote) ∧
          s.requests = unread.flatMap askFor) := by
  obtain ⟨hgood, hreached⟩ := run_good hlen ho hrun hmodest
  have horder := hgood.sound.coherent.order
  refine ⟨hgood.disk, hreached,
    (executed_prefix_popped horder).trans (popped_prefix_entered horder),
    fun k ps hps => hgood.sound.linearizes hps, fun hsf hrf hserving => ?_⟩
  obtain ⟨unread, rest, hlinked⟩ := hgood.linked
  obtain ⟨wire, -, heq, ⟨answered, hcut, hall⟩ | ⟨hdead, -⟩⟩ :=
    hlinked.replies ⟨hrf, fun hf => by simp [hsf] at hf⟩
  · refine ⟨answered, unread, by rw [← heq hsf, hcut], hall, ?_⟩
    rw [hlinked.requests, hlinked.whole hsf, List.append_nil]
  · rw [hserving] at hdead
    cases hdead

/-- A client's READ of the first byte, served by the worker at the other end. -/
def oneRead : List (Event 2) :=
  ((.register :: submit 0 readFirst none ++ sends 6).map fun a => .act a 0) ++
    [.serve Replies.byteByByte, .act (.fwd (.rx .reply)) 0, .receive [16] [1, 1]] ++
    ((receives 2 ++ answers 0 3).map fun a => .act a 0)

theorem proxy_over_target_read :
    ∃ s, run (step Linear.twoBytes 4096) (start [0] (fun _ => 0) fun _ => 7) oneRead = some s ∧
      (s.proxy.sessions.map fun ps => ps.replied.map Priv.readBuff) = [[[7]]] ∧
      s.disk = fun _ => 7 := by
  have hmap : ((run (step Linear.twoBytes 4096) (start [0] (fun _ => 0) fun _ => 7) oneRead).map
      fun s => (s.proxy.sessions.map fun ps => ps.replied.map Priv.readBuff,
        decide (∀ c ∈ s.proxy.fwd.entered, Modest c))) = some ([[[7]]], true) := by
    decide +kernel
  obtain ⟨s, hs, hproj⟩ := Option.map_eq_some_iff.mp hmap
  obtain ⟨hreplied, hmodest⟩ := Prod.mk.inj hproj
  have h := proxy_over_target Linear.twoBytes 4096 (fun _ => 7) (fun _ => 0) [0] (by decide) oneRead
    (by decide +kernel) s hs (of_decide_eq_true hmodest)
  exact ⟨s, hs, hreplied, h.1⟩

end Runs

end Xnbd.Remote
