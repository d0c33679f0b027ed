import Xnbd.Pipeline

/-!
# The proxy is coherent

The bitmap runs ahead of the cache by everything that `forwarder_tx` has
prepared and `forwarder_rx` has not carried out. The invariant names the
reference disk at both ends of this pipeline: the bitmap is the set of marked
blocks after the last prepared request, the cache file holds the marked blocks
after the last executed one, and every request in between was prepared at the
reference disk in which it will be carried out.
-/
namespace Xnbd.Coherence

open CInt Block Bitmap Bytes Nbd Requests Forwarder Reference Deferred Transitions Pipeline

variable {disksize : Nat}

/-- What the data invariant needs to know of a prepared request. -/
structure Line (disksize : Nat) where
  call : Call disksize
  req : List ReadReq
  seqnum : Nat

def line (p : Priv disksize) : Line disksize := ⟨p.call, p.req, p.seqnum⟩

/-- The prepared requests that are not carried out, in forwarder order. While
parked requests are put back they stand behind those already in the queue. -/
def pipe (f : Fwd disksize) : List (Priv disksize) :=
  if f.main = .requeue then ready f.fwdTxQueue ++ f.fwdRetryQueue
  else f.fwdRetryQueue ++ rxLine f ++ ready (txLine f)

def pending (f : Fwd disksize) : List (Line disksize) := (pipe f).map line

/-- The request that `forwarder_tx` is preparing. -/
def preparing : TxPc disksize → List (Call disksize)
  | .got (.req p) => if p.prepareDone then [] else [p.call]
  | .readLoop p _ => [p.call]
  | .writeLoop p _ _ _ => [p.call]
  | _ => []

/-- The requests of a queue that are still to be prepared. -/
def waiting (q : List (Entry disksize)) : List (Call disksize) :=
  ((privs q).filter fun p => !p.prepareDone).map Priv.call

/-- The reference disk, with the number of requests so far. -/
def lineStep (s : RefDisk × Nat) (l : Line disksize) : RefDisk × Nat :=
  (refStep s.1 l.call.request, s.2 + 1)

def LineOk (s : RefDisk × Nat) (l : Line disksize) : Prop :=
  PreparedAt s.1 l.call.request l.req ∧ l.seqnum = s.2

theorem foldl_lineStep (s : RefDisk × Nat) (ls : List (Line disksize)) :
    ls.foldl lineStep s = (refRun s.1 (ls.map Line.call), s.2 + ls.length) := by
  induction ls generalizing s with
  | nil => rfl
  | cons l rest ih =>
    rw [List.foldl_cons, ih]
    simp only [lineStep, List.map_cons, refRun_cons, List.length_cons]
    congr 1
    omega

section Order

variable {cfg : Config disksize} {remote : File} {R : RefDisk} {f g : Fwd disksize}
  {a : Action disksize}

/-- Entered, popped, prepared, executed: each list is the beginning of the one
before it, and the difference is found in the queues. -/
structure Order (R : RefDisk) (f : Fwd disksize) : Prop where
  prepared : f.prepared = f.executed ++ (pending f).map Line.call
  chain : Chain lineStep LineOk (refRun R f.executed, f.executed.length) (pending f)
  counter : f.fwdCounter = f.prepared.length
  popped : f.popped = f.prepared ++ preparing f.tx
  entered : f.entered = f.popped ++ waiting f.fwdTxQueue

theorem pipe_running (h : f.main ≠ .requeue) :
    pipe f = f.fwdRetryQueue ++ rxLine f ++ ready (txLine f) := by simp [pipe, h]

theorem initial_order (R : RefDisk) (cbitmap : Words) (cache : File) :
    Order R (initial cbitmap cache : Fwd disksize) := by
  constructor <;> simp [initial, pending, pipe, rxLine, rxHeld, txLine, txHeld, preparing, waiting]

@[simp] theorem waiting_append (a b : List (Entry disksize)) :
    waiting (a ++ b) = waiting a ++ waiting b := by simp [waiting]

/-- Steps that leave the pipeline as it is. -/
theorem Order.keep (h : Order R f) (hp : pending g = pending f)
    (hg : g.prepared = f.prepared ∧ g.executed = f.executed ∧ g.fwdCounter = f.fwdCounter)
    (hpop : g.popped = f.prepared ++ preparing g.tx)
    (hent : g.entered = g.popped ++ waiting g.fwdTxQueue) : Order R g := by
  obtain ⟨hprep, hexec, hcount⟩ := hg
  refine ⟨?_, ?_, ?_, ?_, hent⟩
  · rw [hprep, hexec, hp]
    exact h.prepared
  · rw [hexec, hp]
    exact h.chain
  · rw [hcount, hprep]
    exact h.counter
  · rw [hprep]
    exact hpop

/-- The end of the preparation: the request joins the pipeline at its end. -/
theorem Order.prepare (h : Order R f) (hsh : Shape f) (hrun : f.main ≠ .requeue)
    {p p' : Priv disksize} (hold : txHeld f.tx = [.req p]) (hpop : preparing f.tx = [p.call])
    (hwait : p.prepareDone = false) (hcall : p'.call = p.call)
    (hprep : PreparedAt (refRun R f.prepared) p'.call.request p'.req) :
    Order R (f.finishPrepare p') := by
  have hready : ready f.fwdTxQueue = [] := by
    have hf := hsh.first
    rw [ReadyFirst, txLine, hold, List.singleton_append, List.pairwise_cons] at hf
    exact ready_eq_nil fun e he => hf.1 e he (by simp [isWaiting, hwait])
  have htx : ready (txLine f) = [] := by
    rw [txLine, hold, List.singleton_append, ready_req_false _ hwait, hready]
  have htx' : ready (txLine (f.finishPrepare p')) =
      [{ p' with seqnum := f.fwdCounter, prepareDone := true }] := by
    rw [show txLine (f.finishPrepare p') =
      .req { p' with seqnum := f.fwdCounter, prepareDone := true } :: f.fwdTxQueue from rfl,
      ready_req_true _ rfl, hready]
  have hrun' : (f.finishPrepare p').main ≠ .requeue := hrun
  have hpend : pending (f.finishPrepare p') = pending f ++ [⟨p'.call, p'.req, f.fwdCounter⟩] := by
    rw [pending, pending, pipe_running hrun, pipe_running hrun', htx, htx']
    simp only [List.append_nil, List.map_append]
    rfl
  have hfold := foldl_lineStep (refRun R f.executed, f.executed.length) (pending f)
  rw [← refRun_append, ← h.prepared] at hfold
  refine ⟨?_, ?_, ?_, ?_, ?_⟩
  · rw [hpend, List.map_append, ← List.append_assoc]
    exact congrArg (· ++ [p'.call]) h.prepared
  · rw [hpend]
    apply chain_concat h.chain
    rw [hfold]
    refine ⟨hprep, ?_⟩
    have hlen := congrArg List.length h.prepared
    simp only [List.length_append, List.length_map] at hlen
    rw [← hlen]
    exact h.counter
  · simp only [Fwd.finishPrepare, List.length_append, List.length_singleton]
    rw [h.counter]
  · simp only [Fwd.finishPrepare, preparing, List.append_nil]
    rw [h.popped, hpop, hcall]
  · exact h.entered

/-- The oldest pending request is carried out. -/
theorem Order.execute (h : Order R f) {p : Priv disksize} (hp : pending f = line p :: pending g)
    (hg : g.prepared = f.prepared ∧ g.executed = f.executed ++ [p.call] ∧
      g.fwdCounter = f.fwdCounter ∧ g.popped = f.popped ∧ g.entered = f.entered ∧
      g.tx = f.tx ∧ g.fwdTxQueue = f.fwdTxQueue) : Order R g := by
  obtain ⟨hprep, hexec, hcount, hpop, hent, htx, hq⟩ := hg
  refine ⟨?_, ?_, ?_, ?_, ?_⟩
  · rw [hprep, hexec, h.prepared, hp, List.map_cons, List.append_assoc]
    rfl
  · have hchain := h.chain
    rw [hp, chain_cons] at hchain
    rw [hexec, refRun_append, List.length_append]
    exact hchain.2
  · rw [hcount, hprep]
    exact h.counter
  · rw [hpop, hprep, htx]
    exact h.popped
  · rw [hent, hpop, hq]
    exact h.entered

end Order

section Marking

variable {cfg : Config disksize} {remote : File} {R S : RefDisk} {f g : Fwd disksize}
  {a : Action disksize} {r : Request disksize}

/-- The blocks that the loop of `forwarder_tx` has been through. -/
def loopMarks : TxPc disksize → Nat → Bool
  | .readLoop p i, b => decide (p.call.request.blockIndexStart ≤ b ∧ b < i)
  | .writeLoop p _ _ i, b => decide (p.call.request.blockIndexStart ≤ b ∧ b < i)
  | _, _ => false

/-- Block `i` is a place the loop over the request's blocks can be at. -/
def LoopAt (r : Request disksize) (words i : Nat) : Prop :=
  r.blockIndexStart ≤ i ∧ (r.blockIndexStart < i → i ≤ r.blockIndexEnd + 1 ∧ i ≤ 64 * words)

/-- What the loop has collected, for the reference disk it prepares at. -/
def LoopInv (S : RefDisk) (words : Nat) : TxPc disksize → Prop
  | .readLoop p i => (p.call.request.iotype = .read ∨ p.call.request.iotype = .cache) ∧
      LoopAt p.call.request words i ∧ ∀ b, Fetches p.req b ↔
        (p.call.request.blockIndexStart ≤ b ∧ b < i) ∧ S.marked b = false
  | .writeLoop p getStart getEnd i => p.call.request.iotype = .write ∧
      LoopAt p.call.request words i ∧ getStart = p.call.request.getStartBlock S.marked ∧
        getEnd = p.call.request.getEndBlock S.marked
  | _ => True

/-- The bitmap is the reference disk's set of blocks after the last prepared
request, and what the loop has added since. -/
structure Marking (R : RefDisk) (f : Fwd disksize) : Prop where
  words : f.cbitmap.length = bitsToLongs (getDiskNblocks disksize)
  bits : ∀ b, bitmapTest f.cbitmap b = ((refRun R f.prepared).marked b || loopMarks f.tx b)
  loop : LoopInv (refRun R f.prepared) f.cbitmap.length f.tx

theorem initial_marking {cbitmap : Words} {cache remote : File}
    (h : cbitmap.length = bitsToLongs (getDiskNblocks disksize)) :
    Marking (refOf cbitmap cache remote) (initial cbitmap cache : Fwd disksize) :=
  ⟨h, fun b => by simp [initial, refOf, loopMarks], trivial⟩

theorem LoopAt.start (r : Request disksize) (words : Nat) : LoopAt r words r.blockIndexStart :=
  ⟨le_refl _, fun h => absurd h (Nat.lt_irrefl _)⟩

/-- The loop counter does not wrap while it is inside the bitmap. -/
theorem LoopAt.next {bm : Words} {i : Nat} (h : LoopAt r bm.length i)
    (hd : disksize ≤ offMax) (hw : bm.length = bitsToLongs (getDiskNblocks disksize))
    (hi : i ≤ r.blockIndexEnd) (hin : Inside bm i) :
    (i + 1) % 2 ^ 64 = i + 1 ∧ LoopAt r bm.length (i + 1) := by
  have hlt := words_lt hd
  rw [lt_iff_index, hw] at hin
  have hle := h.1
  refine ⟨Nat.mod_eq_of_lt (by omega), by omega, fun _ => ⟨by omega, by rw [hw]; omega⟩⟩

/-- Behind the loop exactly the request's blocks have been visited. -/
theorem LoopAt.finish {words i : Nat} (h : LoopAt r words i) (hi : r.blockIndexEnd < i) (b : Nat) :
    (r.blockIndexStart ≤ b ∧ b < i) ↔ r.InBlocks b := by
  unfold Request.InBlocks
  obtain ⟨hle, hend⟩ := h
  rcases Nat.lt_or_eq_of_le hle with hlt | rfl
  · have := hend hlt
    omega
  · omega

theorem LoopAt.bounded {words i : Nat} (h : LoopAt r words i) (hi : r.blockIndexEnd < i)
    (hd : disksize ≤ offMax) (hw : words = bitsToLongs (getDiskNblocks disksize))
    (hle : r.blockIndexStart ≤ r.blockIndexEnd) : r.blockIndexEnd < 2 ^ 64 - 1 := by
  have hlt := words_lt hd
  have := (h.2 (by omega)).2
  rw [hw] at this
  omega

/-- A READ or CACHE that leaves its loop is prepared. -/
theorem LoopInv.read_done {words i : Nat} {p : Priv disksize}
    (h : LoopInv S words (.readLoop p i)) (hi : p.call.request.blockIndexEnd < i)
    (hd : disksize ≤ offMax) (hw : words = bitsToLongs (getDiskNblocks disksize)) :
    PreparedAt S p.call.request p.req := by
  obtain ⟨htype, hat, hreq⟩ := h
  refine ⟨fun _ b => ?_, fun hwr => ?_, fun hm => ?_, fun _ hle => hat.bounded hi hd hw hle⟩
  · rw [hreq b, hat.finish hi]
  · rcases htype with ht | ht <;> simp [ht] at hwr
  · rcases htype with ht | ht
    · exact absurd (.inl ht) hm
    · exact absurd (.inr (.inl ht)) hm

theorem fetches_edgeReqs {getStart getEnd : Bool} {b : Nat} :
    Fetches (edgeReqs r getStart getEnd) b ↔
      getStart = true ∧ b = r.blockIndexStart ∨ getEnd = true ∧ b = r.blockIndexEnd := by
  have hone : ∀ (needed : Bool) (i : Nat),
      Fetches (if needed then [⟨i, 1⟩] else []) b ↔ needed = true ∧ b = i := by
    intro needed i
    cases needed with
    | true =>
      simp only [if_true, fetches_one, true_and]
      omega
    | false => simp
  rw [edgeReqs, fetches_append, hone, hone]

/-- A WRITE that leaves its loop is prepared. -/
theorem LoopInv.write_done {words i : Nat} {p : Priv disksize} {getStart getEnd : Bool}
    (h : LoopInv S words (.writeLoop p getStart getEnd i)) (hi : p.call.request.blockIndexEnd < i)
    (hreq : p.req = []) (hd : disksize ≤ offMax)
    (hw : words = bitsToLongs (getDiskNblocks disksize)) :
    PreparedAt S p.call.request (p.req ++ edgeReqs p.call.request getStart getEnd) := by
  obtain ⟨htype, hat, rfl, rfl⟩ := h
  refine ⟨fun hr => ?_, fun _ b => ?_, fun hm => ?_, fun _ hle => hat.bounded hi hd hw hle⟩
  · simp [htype] at hr
  · rw [hreq, List.nil_append]
    exact fetches_edgeReqs
  · exact absurd (.inr (.inr htype)) hm

theorem preparedAt_plain (hr : ¬Marks r) : PreparedAt S r [] := by
  refine ⟨fun h => ?_, fun h => ?_, fun _ => rfl, fun h => absurd h hr⟩
  · exact absurd (h.elim .inl fun h => .inr (.inl h)) hr
  · exact absurd (.inr (.inr h)) hr

/-- Steps that leave the bitmap and the loops alone. -/
theorem Marking.keep (h : Marking R f) (hbm : g.cbitmap = f.cbitmap)
    (hprep : g.prepared = f.prepared) (hf : ∀ b, loopMarks g.tx b = loopMarks f.tx b)
    (hloop : LoopInv (refRun R f.prepared) f.cbitmap.length g.tx) : Marking R g := by
  refine ⟨hbm ▸ h.words, fun b => ?_, ?_⟩
  · rw [hbm, hprep, hf]
    exact h.bits b
  · rw [hbm, hprep]
    exact hloop

/-- The bitmap already shows the request whose preparation ends. -/
theorem Marking.prepare (h : Marking R f) {p : Priv disksize}
    (hmarks : ∀ b, loopMarks f.tx b =
      decide (Marks p.call.request ∧ p.call.request.InBlocks b)) :
    Marking R (f.finishPrepare p) := by
  refine ⟨h.words, fun b => ?_, trivial⟩
  simp only [Fwd.finishPrepare, refRun_append, refRun_cons, refRun_nil, refStep_marked, loopMarks,
    Bool.or_false]
  rw [h.bits b, hmarks b]

/-- A block that is cached is passed over, and any other one is marked and requested. -/
theorem prepareReadBlock_cases {bm : Words} {req : List ReadReq} {i : Nat}
    {s : Words × List ReadReq} (h : prepareReadBlock bm req i = some s) :
    Inside bm i ∧ (bitmapTest bm i = true ∧ s = (bm, req) ∨
      bitmapTest bm i = false ∧ ∃ req', addReadBlockToTail req i = some req' ∧
        s = (bitmapOn bm i, req')) := by
  unfold prepareReadBlock at h
  split at h
  · rename_i hin
    refine ⟨hin, ?_⟩
    split at h
    · rename_i ht
      cases h
      exact .inl ⟨ht, rfl⟩
    · rename_i ht
      obtain ⟨req', hadd, rfl⟩ := Option.map_eq_some_iff.mp h
      exact .inr ⟨Bool.eq_false_iff.mpr ht, req', hadd, rfl⟩
  · cases h

/-- One block of `prepare_read_priv`. -/
theorem prepareReadBlock_spec {bm bm' : Words} {req req' : List ReadReq} {i : Nat}
    (h : prepareReadBlock bm req i = some (bm', req')) :
    Inside bm i ∧ bm'.length = bm.length ∧
      (∀ b, bitmapTest bm' b = (bitmapTest bm b || decide (b = i))) ∧
      ∀ b, Fetches req' b ↔ Fetches req b ∨ b = i ∧ bitmapTest bm i = false := by
  obtain ⟨hin, ⟨ht, he⟩ | ⟨ht, req'', hadd, he⟩⟩ := prepareReadBlock_cases h
  · cases he
    refine ⟨hin, rfl, fun b => ?_, fun b => by simp [ht]⟩
    by_cases hb : b = i
    · subst hb
      simp [ht]
    · simp [hb]
  · cases he
    refine ⟨hin, bitmapOn_length bm i, bitmapTest_bitmapOn hin, fun b => ?_⟩
    rw [addReadBlockToTail_fetches hadd]
    simp [ht]

/-- One block of `prepare_write_priv`. -/
theorem prepareWriteBlock_spec {bm bm' : Words} {i : Nat}
    (h : prepareWriteBlock bm i = some bm') :
    Inside bm i ∧ bm'.length = bm.length ∧
      ∀ b, bitmapTest bm' b = (bitmapTest bm b || decide (b = i)) := by
  unfold prepareWriteBlock at h
  split at h
  · rename_i hin
    cases h
    refine ⟨hin, ?_⟩
    split
    · rename_i ht
      refine ⟨rfl, fun b => ?_⟩
      by_cases hb : b = i
      · subst hb
        simp [ht]
      · simp [hb]
    · exact ⟨bitmapOn_length bm i, bitmapTest_bitmapOn hin⟩
  · cases h

/-- Visiting one more block. -/
theorem visited_succ {sta i b : Nat} (h : sta ≤ i) :
    decide (sta ≤ b ∧ b < i + 1) = (decide (sta ≤ b ∧ b < i) || decide (b = i)) := by
  rw [← Bool.decide_or]
  exact decide_eq_decide.mpr (by omega)

theorem step_marking (hd : disksize ≤ offMax) (hc : Control f) (hsh : Shape f) (h : Marking R f)
    (ht : Trans cfg remote f a g) : Marking R g := by
  cases ht with
  | abort
  | pushExit k b
  | pushReq c
  | rxStop | rxExit | rxTake | rxReply | rxStray | rxFailed | rxPark | rxFlush | rxExecute | rxSync
  | rxHand | stop | joined | requeue => exact ⟨h.words, h.bits, h.loop⟩
  | txPopFresh sent p rest htx hq hp
  | txPop sent e rest htx hq he
  | txStop sent htx
  | txExit sent k b htx
  | txAgain sent p htx hp
  | txSent p i rr htx hrr
  | txSendFailed p i rr htx hrr
  | txPass sent p i htx hrr => exact h.keep rfl rfl (fun b => by simp [htx, loopMarks]) trivial
  | txStartRead sent p htx hp hr =>
    have hheld := hsh.held
    rw [htx] at hheld
    have hreq : p.req = [] := by
      rw [hheld hp]
      rfl
    refine h.keep rfl rfl (fun b => ?_) ⟨hr, .start _ _, fun b => ?_⟩
    · simp only [htx, loopMarks, decide_eq_false_iff_not]
      omega
    · rw [hreq]
      simp only [fetches_nil, false_iff]
      omega
  | txStartWrite sent p htx hp hr =>
    have hbits : bitmapTest f.cbitmap = (refRun R f.prepared).marked := by
      funext b
      simpa [htx, loopMarks] using h.bits b
    refine h.keep rfl rfl (fun b => ?_) ⟨hr, .start _ _, by rw [hbits], by rw [hbits]⟩
    simp only [htx, loopMarks, decide_eq_false_iff_not]
    omega
  | txPlain sent p htx hp hr =>
    refine h.prepare fun b => ?_
    simp [htx, loopMarks, hr]
  | txReadBlock sent p i bm req htx hi hb =>
    obtain ⟨hin, hlen, hbits, hreq⟩ := prepareReadBlock_spec hb
    have hloop := h.loop
    rw [htx] at hloop
    obtain ⟨htype, hat, hfetch⟩ := hloop
    obtain ⟨hnext, hat'⟩ := hat.next hd h.words hi hin
    have hold := h.bits
    simp only [htx, loopMarks] at hold
    have hbi : bitmapTest f.cbitmap i = (refRun R f.prepared).marked i := by simp [hold i]
    refine ⟨hlen.trans h.words, fun b => ?_, ?_⟩
    · simp only [hnext, loopMarks]
      rw [hbits b, hold b, visited_succ hat.1, Bool.or_assoc]
    · simp only [hnext, hlen]
      refine ⟨htype, hat', fun b => ?_⟩
      have hsta := hat.1
      rw [hreq b, hfetch b, hbi]
      constructor
      · rintro (⟨hb, hm⟩ | ⟨rfl, hm⟩)
        · exact ⟨⟨hb.1, by omega⟩, hm⟩
        · exact ⟨⟨hsta, by omega⟩, hm⟩
      · rintro ⟨hb, hm⟩
        by_cases he : b = i
        · exact .inr ⟨he, he ▸ hm⟩
        · exact .inl ⟨⟨hb.1, by omega⟩, hm⟩
  | txReadDone sent p i htx hi =>
    have hloop := h.loop
    rw [htx] at hloop
    refine h.prepare fun b => ?_
    have hm : Marks p.call.request := hloop.1.elim .inl fun h => .inr (.inl h)
    simp only [htx, loopMarks, hm, true_and]
    exact decide_eq_decide.mpr (hloop.2.1.finish hi b)
  | txWriteBlock sent p gs ge i bm htx hi hb =>
    obtain ⟨hin, hlen, hbits⟩ := prepareWriteBlock_spec hb
    have hloop := h.loop
    rw [htx] at hloop
    obtain ⟨htype, hat, hgs, hge⟩ := hloop
    obtain ⟨hnext, hat'⟩ := hat.next hd h.words hi hin
    have hold := h.bits
    simp only [htx, loopMarks] at hold
    refine ⟨hlen.trans h.words, fun b => ?_, ?_⟩
    · simp only [hnext, loopMarks]
      rw [hbits b, hold b, visited_succ hat.1, Bool.or_assoc]
    · simp only [hnext, hlen]
      exact ⟨htype, hat', hgs, hge⟩
  | txWriteDone sent p gs ge i htx hi =>
    have hloop := h.loop
    rw [htx] at hloop
    refine h.prepare fun b => ?_
    have hm : Marks p.call.request := .inr (.inr hloop.1)
    simp only [htx, loopMarks, hm, true_and]
    exact decide_eq_decide.mpr (hloop.2.1.finish hi b)
  | restart hm hq =>
    have htx := exited_of_isExited (hc.parked (.inl hm)).1
    exact h.keep rfl rfl (fun b => by simp [htx, loopMarks]) trivial

end Marking

section OrderSteps

variable {cfg : Config disksize} {remote : File} {R : RefDisk} {f g : Fwd disksize}
  {a : Action disksize}

/-- A FLUSH under way belongs to a connection that did not fail, and the cache
file is the one it synchronized. -/
def Flushing (f : Fwd disksize) : Prop :=
  ∀ p synced, f.rx = .flushing p synced → p.needRetry = false ∧ f.receivingFailed = false ∧
    p.call.request.iotype = .flush ∧ synced = f.cache

theorem initial_flushing (cbitmap : Words) (cache : File) :
    Flushing (initial cbitmap cache : Fwd disksize) := by
  intro p synced hrx
  cases hrx

theorem step_flushing (h : Flushing f) (ht : Trans cfg remote f a g) : Flushing g := by
  cases ht with
  | rxFlush ev p mbr i hrx hrr hp hf hr =>
    intro p' synced hrx'
    cases hrx'
    exact ⟨hp, hf, hr, rfl⟩
  | rxStop | rxExit | rxTake | rxReply | rxStray | rxFailed | rxPark | rxExecute | rxSync | rxHand
  | restart =>
    intro p' synced hrx'
    cases hrx'
  | _ => exact h

/-- An entry comes in. -/
theorem Order.push (h : Order R f) {e : Entry disksize}
    (ht : Trans cfg remote f (.push e) g) : Order R g := by
  cases ht with
  | abort => exact ⟨h.prepared, h.chain, h.counter, h.popped, h.entered⟩
  | pushExit k b =>
    refine h.keep ?_ ⟨rfl, rfl, rfl⟩ h.popped ?_
    · simp [pending, pipe, rxLine, txLine]
    · simpa [waiting] using h.entered
  | pushReq c =>
    refine h.keep ?_ ⟨rfl, rfl, rfl⟩ h.popped ?_
    · simp [pending, pipe, rxLine, txLine, ready, Priv.fresh]
    · simp [waiting, h.entered, Priv.fresh]

/-- `forwarder_tx` takes a request that is still to be prepared. -/
theorem Order.popFresh (h : Order R f) {p : Priv disksize} {rest : List (Entry disksize)}
    (htx : f.tx = .idle) (hq : f.fwdTxQueue = .req p :: rest) (hp : p.prepareDone = false) :
    Order R { f with fwdTxQueue := rest, tx := .got (.req p), popped := f.popped ++ [p.call] } := by
  have hprep : f.popped = f.prepared := by simpa [htx, preparing] using h.popped
  refine h.keep ?_ ⟨rfl, rfl, rfl⟩ ?_ ?_
  · simp [pending, pipe, rxLine, txLine, txHeld, htx, hq, ready, hp]
  · simp [preparing, hp, hprep]
  · simp [h.entered, hq, waiting, hp]

/-- `forwarder_tx` takes any other entry. -/
theorem Order.pop (h : Order R f) (hc : Control f) {e : Entry disksize}
    {rest : List (Entry disksize)} (htx : f.tx = .idle) (hq : f.fwdTxQueue = e :: rest)
    (he : ∀ p, e = .req p → p.prepareDone = true) :
    Order R { f with fwdTxQueue := rest, tx := .got e } := by
  have hprep : f.popped = f.prepared := by simpa [htx, preparing] using h.popped
  have hrun := hc.running (.inl (by simp [htx, TxPc.isExited]))
  refine h.keep ?_ ⟨rfl, rfl, rfl⟩ ?_ ?_
  · simp [pending, pipe, hrun, rxLine, txLine, txHeld, htx, hq]
  · cases e with
    | req p => simp [preparing, he p rfl, hprep]
    | stop => simp [preparing, hprep]
    | exit k b => simp [preparing, hprep]
  · cases e with
    | req p => simp [h.entered, hq, waiting, he p rfl]
    | stop => simp [h.entered, hq, waiting]
    | exit k b => simp [h.entered, hq, waiting]

/-- `forwarder_tx` passes its request on. -/
theorem Order.pass (h : Order R f) (hc : Control f) (hsh : Shape f) {p : Priv disksize} {i : Nat}
    (htx : f.tx = .send p i) :
    Order R { f with
      fwdRxQueue := f.fwdRxQueue ++ [.req { p with needRetry := p.needRetry || f.sendingFailed }]
      tx := .idle } := by
  have hrun := hc.running (.inl (by simp [htx, TxPc.isExited]))
  have hp : p.prepareDone = true := by simpa [htx, TxShape] using hsh.held
  refine h.keep ?_ ⟨rfl, rfl, rfl⟩ ?_ h.entered
  · simp [pending, pipe, hrun, rxLine, txLine, txHeld, htx, ready, hp, line]
  · simpa [preparing, htx] using h.popped

/-- A step of `forwarder_tx`. -/
theorem Order.tx (hd : disksize ≤ offMax) (hc : Control f) (hsh : Shape f) (hm : Marking R f)
    (h : Order R f) {sent : Bool} (ht : Trans cfg remote f (.tx sent) g) : Order R g := by
  have hheld := hsh.held
  have hloop := hm.loop
  have hrun : f.tx.isExited = false → f.main ≠ .requeue := fun hx => hc.running (.inl hx)
  cases ht with
  | abort => exact ⟨h.prepared, h.chain, h.counter, h.popped, h.entered⟩
  | txPopFresh sent p rest htx hq hp => exact h.popFresh htx hq hp
  | txPop sent e rest htx hq he => exact h.pop hc htx hq he
  | txStop sent htx
  | txExit sent k b htx =>
    refine h.keep ?_ ⟨rfl, rfl, rfl⟩ ?_ h.entered
    · simp [pending, pipe, hrun (by simp [htx, TxPc.isExited]), rxLine, txLine, txHeld, htx]
    · simpa [preparing, htx] using h.popped
  | txAgain sent p htx hp
  | txStartRead sent p htx hp hr
  | txStartWrite sent p htx hp hr =>
    refine h.keep ?_ ⟨rfl, rfl, rfl⟩ ?_ h.entered
    · simp [pending, pipe, rxLine, txLine, txHeld, htx]
    · simpa [preparing, htx, hp] using h.popped
  | txPlain sent p htx hp hr =>
    rw [htx] at hheld
    have hreq : p.req = [] := by
      rw [hheld hp]
      rfl
    refine h.prepare hsh (hrun (by simp [htx, TxPc.isExited])) (p := p) (by simp [htx, txHeld])
      (by simp [htx, preparing, hp]) hp rfl ?_
    rw [hreq]
    exact preparedAt_plain hr
  | txReadBlock sent p i bm req htx hi hb =>
    have hp : p.prepareDone = false := by simpa [htx, TxShape] using hheld
    refine h.keep ?_ ⟨rfl, rfl, rfl⟩ ?_ h.entered
    · simp [pending, pipe, rxLine, txLine, txHeld, htx, ready, hp]
    · simpa [preparing, htx] using h.popped
  | txReadDone sent p i htx hi =>
    have hp : p.prepareDone = false := by simpa [htx, TxShape] using hheld
    rw [htx] at hloop
    exact h.prepare hsh (hrun (by simp [htx, TxPc.isExited])) (p := p) (by simp [htx, txHeld])
      (by simp [htx, preparing]) hp rfl (hloop.read_done hi hd hm.words)
  | txWriteBlock sent p gs ge i bm htx hi hb
  | txSent p i rr htx hrr
  | txSendFailed p i rr htx hrr =>
    refine h.keep ?_ ⟨rfl, rfl, rfl⟩ ?_ h.entered
    · simp [pending, pipe, rxLine, txLine, txHeld, htx]
    · simpa [preparing, htx] using h.popped
  | txWriteDone sent p gs ge i htx hi =>
    have hp : p.prepareDone = false ∧ p.req = [] := by simpa [htx, TxShape] using hheld
    rw [htx] at hloop
    exact h.prepare hsh (hrun (by simp [htx, TxPc.isExited])) (p := p) (by simp [htx, txHeld])
      (by simp [htx, preparing]) hp.1 rfl (hloop.write_done hi hp.2 hd hm.words)
  | txPass sent p i htx hrr => exact h.pass hc hsh htx

/-- A step of `forwarder_rx`. -/
theorem Order.rx (hc : Control f) (hf : Failing f) (hfl : Flushing f) (h : Order R f)
    {ev : RecvEvent} (ht : Trans cfg remote f (.rx ev) g) : Order R g := by
  have hrun : f.rx.isExited = false → f.main ≠ .requeue := fun hx => hc.running (.inr hx)
  cases ht with
  | abort => exact ⟨h.prepared, h.chain, h.counter, h.popped, h.entered⟩
  | rxStop ev rest hrx hq
  | rxExit ev k b rest hrx hq
  | rxTake ev p rest mbr hrx hq hm =>
    refine h.keep ?_ ⟨rfl, rfl, rfl⟩ h.popped h.entered
    simp [pending, pipe, rxLine, rxHeld, txLine, hrx, hq]
  | rxReply p mbr i rr hrx hrr hw
  | rxStray p mbr i rr bytes hrx hrr hw hlen
  | rxFailed p mbr i rr bytes hrx hrr hlen
  | rxFlush ev p mbr i hrx hrr hp hf hr
  | rxHand ev e hrx =>
    refine h.keep ?_ ⟨rfl, rfl, rfl⟩ h.popped h.entered
    simp [pending, pipe, rxLine, rxHeld, txLine, hrx]
  | rxPark ev p mbr i hrx hrr hp =>
    have hmain := hrun (by simp [hrx, RxPc.isExited])
    refine h.keep ?_ ⟨rfl, rfl, rfl⟩ h.popped h.entered
    simp [pending, pipe, hmain, rxLine, rxHeld, txLine, hrx, line]
  | rxExecute ev p mbr i cache readBuff hrx hrr hp hrf hr hcache hbuff =>
    have hmain := hrun (by simp [hrx, RxPc.isExited])
    have hnil := hf.unparked hmain (p := p) (by simp [rxLine, hrx, rxHeld]) hp hrf
    refine h.execute (p := p) ?_ ⟨rfl, rfl, rfl, rfl, rfl, rfl, rfl⟩
    simp [pending, pipe, hmain, rxLine, rxHeld, txLine, hrx, hnil]
  | rxSync ev p synced hrx =>
    have hmain := hrun (by simp [hrx, RxPc.isExited])
    obtain ⟨hn, hrf, -⟩ := hfl p synced hrx
    have hnil := hf.unparked hmain (p := p) (by simp [rxLine, hrx, rxHeld]) hn hrf
    refine h.execute (p := p) ?_ ⟨rfl, rfl, rfl, rfl, rfl, rfl, rfl⟩
    simp [pending, pipe, hmain, rxLine, rxHeld, txLine, hrx, hnil]

/-- The threads are joined. Nothing is left in the queue between them. -/
theorem Order.joined (h : Order R f) (hc : Control f) (hsh : Shape f) {final : Bool}
    (hm : f.main = .joining final) (htx : f.tx.isExited = true) (hrx : f.rx.isExited = true) :
    Order R { f with main := if final then .closed else .requeue } := by
  have hrxq := (hc.rxDone hrx).2
  have hready := hsh.drained htx (by simp [hm])
  have htx' := exited_of_isExited htx
  have hrx' := exited_of_rxIsExited hrx
  refine h.keep ?_ ⟨rfl, rfl, rfl⟩ h.popped h.entered
  cases final with
  | true => simp [pending, pipe, hm, rxLine, txLine]
  | false => simp [pending, pipe, hm, rxLine, rxHeld, txLine, txHeld, htx', hrx', hrxq, hready]

/-- The threads are started again. -/
theorem Order.restart (h : Order R f) (hc : Control f) (hm : f.main = .requeue)
    (hq : f.fwdRetryQueue = []) :
    Order R { f with
      main := .loop
      tx := .idle
      rx := .idle
      sendingFailed := false
      receivingFailed := false
      wire := [] } := by
  obtain ⟨htx, hrx⟩ := hc.parked (.inl hm)
  have hrxq := (hc.rxDone hrx).2
  have htx' := exited_of_isExited htx
  refine h.keep ?_ ⟨rfl, rfl, rfl⟩ ?_ h.entered
  · simp [pending, pipe, hm, hq, rxLine, rxHeld, txLine, txHeld, hrxq]
  · simpa [preparing, htx'] using h.popped

theorem step_order (hd : disksize ≤ offMax) (hc : Control f) (hsh : Shape f) (hf : Failing f)
    (hfl : Flushing f) (hm : Marking R f) (h : Order R f) (ht : Trans cfg remote f a g) :
    Order R g := by
  cases a with
  | push e => exact h.push ht
  | tx sent => exact h.tx hd hc hsh hm ht
  | rx ev => exact h.rx hc hf hfl ht
  | stop final =>
    cases ht with
    | abort => exact ⟨h.prepared, h.chain, h.counter, h.popped, h.entered⟩
    | stop final hm =>
      refine h.keep ?_ ⟨rfl, rfl, rfl⟩ h.popped ?_
      · simp [pending, pipe, hm, rxLine, txLine]
      · simpa [waiting] using h.entered
  | joined =>
    cases ht with
    | abort => exact ⟨h.prepared, h.chain, h.counter, h.popped, h.entered⟩
    | joined final hm htx hrx => exact h.joined hc hsh hm htx hrx
  | requeue =>
    cases ht with
    | abort => exact ⟨h.prepared, h.chain, h.counter, h.popped, h.entered⟩
    | requeue p rest hm hq =>
      have hp : p.prepareDone = true := hsh.passed p (by simp [hq])
      refine h.keep ?_ ⟨rfl, rfl, rfl⟩ h.popped ?_
      · simp [pending, pipe, hm, hq, ready, hp, line]
      · simpa [waiting, hp] using h.entered
    | restart hm hq => exact h.restart hc hm hq

end OrderSteps

end Xnbd.Coherence
