import Mathlib.Tactic.ByContra
import Xnbd.Forwarder
import Xnbd.Reference

/-!
# What a forwarder step can do

One constructor for every way a step can go, with the state it leads to. The
invariants are proved over these transitions and do not unfold the threads.
-/
namespace Xnbd.Transitions

open Block Bitmap Bytes Nbd Requests Forwarder Reference

variable {disksize : Nat}

inductive Trans (cfg : Config disksize) (remote : File) (f : Fwd disksize) :
    Action disksize → Fwd disksize → Prop
  | abort (a : Action disksize) : Trans cfg remote f a f.abort
  | pushExit (k : Nat) (b : Option Nat) :
      Trans cfg remote f (.push (.exit k b)) { f with fwdTxQueue := f.fwdTxQueue ++ [.exit k b] }
  | pushReq (c : Call disksize) :
      Trans cfg remote f (.push (.req (.fresh c)))
        { f with
          fwdTxQueue := f.fwdTxQueue ++ [.req (.fresh c)]
          entered := f.entered ++ [c] }
  | txPopFresh (sent : Bool) (p : Priv disksize) (rest : List (Entry disksize))
      (htx : f.tx = .idle) (hq : f.fwdTxQueue = .req p :: rest) (hp : p.prepareDone = false) :
      Trans cfg remote f (.tx sent)
        { f with fwdTxQueue := rest, tx := .got (.req p), popped := f.popped ++ [p.call] }
  | txPop (sent : Bool) (e : Entry disksize) (rest : List (Entry disksize)) (htx : f.tx = .idle)
      (hq : f.fwdTxQueue = e :: rest) (he : ∀ p, e = .req p → p.prepareDone = true) :
      Trans cfg remote f (.tx sent) { f with fwdTxQueue := rest, tx := .got e }
  | txStop (sent : Bool) (htx : f.tx = .got .stop) :
      Trans cfg remote f (.tx sent)
        { f with fwdRxQueue := f.fwdRxQueue ++ [.stop], tx := .exited }
  | txExit (sent : Bool) (k : Nat) (b : Option Nat) (htx : f.tx = .got (.exit k b)) :
      Trans cfg remote f (.tx sent)
        { f with fwdRxQueue := f.fwdRxQueue ++ [.exit k b], tx := .idle }
  | txAgain (sent : Bool) (p : Priv disksize) (htx : f.tx = .got (.req p))
      (hp : p.prepareDone = true) : Trans cfg remote f (.tx sent) { f with tx := .send p 0 }
  | txStartRead (sent : Bool) (p : Priv disksize) (htx : f.tx = .got (.req p))
      (hp : p.prepareDone = false)
      (hr : p.call.request.iotype = .read ∨ p.call.request.iotype = .cache) :
      Trans cfg remote f (.tx sent)
        { f with tx := .readLoop p p.call.request.blockIndexStart }
  | txStartWrite (sent : Bool) (p : Priv disksize) (htx : f.tx = .got (.req p))
      (hp : p.prepareDone = false) (hr : p.call.request.iotype = .write) :
      Trans cfg remote f (.tx sent)
        { f with
          tx := .writeLoop p (p.call.request.getStartBlock (bitmapTest f.cbitmap))
            (p.call.request.getEndBlock (bitmapTest f.cbitmap)) p.call.request.blockIndexStart }
  | txPlain (sent : Bool) (p : Priv disksize) (htx : f.tx = .got (.req p))
      (hp : p.prepareDone = false) (hr : ¬Marks p.call.request) :
      Trans cfg remote f (.tx sent) (f.finishPrepare p)
  | txReadBlock (sent : Bool) (p : Priv disksize) (i : Nat) (bm : Words) (req : List ReadReq)
      (htx : f.tx = .readLoop p i) (hi : i ≤ p.call.request.blockIndexEnd)
      (hb : prepareReadBlock f.cbitmap p.req i = some (bm, req)) :
      Trans cfg remote f (.tx sent)
        { f with cbitmap := bm, tx := .readLoop { p with req := req } ((i + 1) % 2 ^ 64) }
  | txReadDone (sent : Bool) (p : Priv disksize) (i : Nat) (htx : f.tx = .readLoop p i)
      (hi : p.call.request.blockIndexEnd < i) :
      Trans cfg remote f (.tx sent) (f.finishPrepare p)
  | txWriteBlock (sent : Bool) (p : Priv disksize) (getStart getEnd : Bool) (i : Nat) (bm : Words)
      (htx : f.tx = .writeLoop p getStart getEnd i) (hi : i ≤ p.call.request.blockIndexEnd)
      (hb : prepareWriteBlock f.cbitmap i = some bm) :
      Trans cfg remote f (.tx sent)
        { f with cbitmap := bm, tx := .writeLoop p getStart getEnd ((i + 1) % 2 ^ 64) }
  | txWriteDone (sent : Bool) (p : Priv disksize) (getStart getEnd : Bool) (i : Nat)
      (htx : f.tx = .writeLoop p getStart getEnd i) (hi : p.call.request.blockIndexEnd < i) :
      Trans cfg remote f (.tx sent)
        (f.finishPrepare { p with req := p.req ++ edgeReqs p.call.request getStart getEnd })
  | txSent (p : Priv disksize) (i : Nat) (rr : ReadReq) (htx : f.tx = .send p i)
      (hrr : p.req[i]? = some rr) :
      Trans cfg remote f (.tx true)
        { f with wire := f.wire ++ [remoteRange disksize rr], tx := .send p (i + 1) }
  | txSendFailed (p : Priv disksize) (i : Nat) (rr : ReadReq) (htx : f.tx = .send p i)
      (hrr : p.req[i]? = some rr) :
      Trans cfg remote f (.tx false)
        { f with sendingFailed := true, tx := .send p p.req.length }
  | txPass (sent : Bool) (p : Priv disksize) (i : Nat) (htx : f.tx = .send p i)
      (hrr : p.req[i]? = none) :
      Trans cfg remote f (.tx sent)
        { f with
          fwdRxQueue := f.fwdRxQueue ++
            [.req { p with needRetry := p.needRetry || f.sendingFailed }]
          tx := .idle }
  | rxStop (ev : RecvEvent) (rest : List (Entry disksize)) (hrx : f.rx = .idle)
      (hq : f.fwdRxQueue = .stop :: rest) :
      Trans cfg remote f (.rx ev) { f with fwdRxQueue := rest, rx := .exited }
  | rxExit (ev : RecvEvent) (k : Nat) (b : Option Nat) (rest : List (Entry disksize))
      (hrx : f.rx = .idle) (hq : f.fwdRxQueue = .exit k b :: rest) :
      Trans cfg remote f (.rx ev) { f with fwdRxQueue := rest, rx := .hand (.exit k b) }
  | rxTake (ev : RecvEvent) (p : Priv disksize) (rest : List (Entry disksize))
      (mbr : MmapBlockRegion) (hrx : f.rx = .idle) (hq : f.fwdRxQueue = .req p :: rest)
      (hm : mmapBlockRegionCreate cfg.pagesize disksize p.call.request.iofrom
        p.call.request.iolen = some mbr) :
      Trans cfg remote f (.rx ev) { f with fwdRxQueue := rest, rx := .recv p mbr 0 }
  | rxReply (p : Priv disksize) (mbr : MmapBlockRegion) (i : Nat) (rr : ReadReq)
      (hrx : f.rx = .recv p mbr i) (hrr : p.req[i]? = some rr)
      (hw : f.wire.head? = some (remoteRange disksize rr)) :
      Trans cfg remote f (.rx .reply)
        { f with
          wire := f.wire.tail
          cache := store f.cache
            (mbr.baIobuf + ((remoteRange disksize rr).1 - mbr.baIofrom)).toNat
            (slice remote (remoteRange disksize rr).1 (remoteRange disksize rr).2)
          rx := .recv p mbr (i + 1) }
  | rxStray (p : Priv disksize) (mbr : MmapBlockRegion) (i : Nat) (rr : ReadReq)
      (bytes : List UInt8) (hrx : f.rx = .recv p mbr i) (hrr : p.req[i]? = some rr)
      (hw : p.needRetry = true ∨ f.receivingFailed = true ∨
        f.wire.head? ≠ some (remoteRange disksize rr))
      (hlen : bytes.length ≤ (remoteRange disksize rr).2) :
      Trans cfg remote f (.rx (.stray bytes))
        { f with
          cache := store f.cache
            (mbr.baIobuf + ((remoteRange disksize rr).1 - mbr.baIofrom)).toNat bytes
          rx := .recv p mbr (i + 1) }
  | rxFailed (p : Priv disksize) (mbr : MmapBlockRegion) (i : Nat) (rr : ReadReq)
      (bytes : List UInt8) (hrx : f.rx = .recv p mbr i) (hrr : p.req[i]? = some rr)
      (hlen : bytes.length ≤ (remoteRange disksize rr).2) :
      Trans cfg remote f (.rx (.failed bytes))
        { f with
          cache := store f.cache
            (mbr.baIobuf + ((remoteRange disksize rr).1 - mbr.baIofrom)).toNat bytes
          receivingFailed := true
          rx := .recv p mbr p.req.length }
  | rxPark (ev : RecvEvent) (p : Priv disksize) (mbr : MmapBlockRegion) (i : Nat)
      (hrx : f.rx = .recv p mbr i) (hrr : p.req[i]? = none)
      (hp : p.needRetry = true ∨ f.receivingFailed = true) :
      Trans cfg remote f (.rx ev)
        { f with
          fwdRetryQueue := f.fwdRetryQueue ++ [{ p with needRetry := true }]
          rx := .idle }
  | rxFlush (ev : RecvEvent) (p : Priv disksize) (mbr : MmapBlockRegion) (i : Nat)
      (hrx : f.rx = .recv p mbr i) (hrr : p.req[i]? = none) (hp : p.needRetry = false)
      (hf : f.receivingFailed = false) (hr : p.call.request.iotype = .flush) :
      Trans cfg remote f (.rx ev) { f with rx := .flushing p f.cache }
  | rxExecute (ev : RecvEvent) (p : Priv disksize) (mbr : MmapBlockRegion) (i : Nat) (cache : File)
      (readBuff : List UInt8) (hrx : f.rx = .recv p mbr i) (hrr : p.req[i]? = none)
      (hp : p.needRetry = false) (hf : f.receivingFailed = false)
      (hr : p.call.request.iotype ≠ .flush)
      (hcache : mbr.iobuf.toNat = p.call.request.start →
        cache = FlatDisk.flatStep f.cache p.call.request)
      (hbuff : mbr.iobuf.toNat = p.call.request.start → p.call.request.iotype = .read →
        readBuff = slice f.cache p.call.request.start p.call.request.iolen) :
      Trans cfg remote f (.rx ev)
        { f with
          cache := cache
          rx := .hand (.req { p with readBuff := readBuff })
          executed := f.executed ++ [p.call] }
  | rxSync (ev : RecvEvent) (p : Priv disksize) (synced : File) (hrx : f.rx = .flushing p synced) :
      Trans cfg remote f (.rx ev)
        { f with
          rx := .hand (.req p)
          durable := f.durable ++ [⟨synced, f.cbitmap, f.executed⟩]
          executed := f.executed ++ [p.call] }
  | rxHand (ev : RecvEvent) (e : Entry disksize) (hrx : f.rx = .hand e) :
      Trans cfg remote f (.rx ev) { f with rx := .idle, handed := f.handed ++ [e] }
  | stop (final : Bool) (hm : f.main = .loop) :
      Trans cfg remote f (.stop final)
        { f with fwdTxQueue := f.fwdTxQueue ++ [.stop], main := .joining final }
  | joined (final : Bool) (hm : f.main = .joining final) (htx : f.tx.isExited = true)
      (hrx : f.rx.isExited = true) :
      Trans cfg remote f .joined { f with main := if final then .closed else .requeue }
  | requeue (p : Priv disksize) (rest : List (Priv disksize)) (hm : f.main = .requeue)
      (hq : f.fwdRetryQueue = p :: rest) :
      Trans cfg remote f .requeue
        { f with
          fwdRetryQueue := rest
          fwdTxQueue := f.fwdTxQueue ++ [.req { p with needRetry := false }] }
  | restart (hm : f.main = .requeue) (hq : f.fwdRetryQueue = []) :
      Trans cfg remote f .requeue
        { f with
          main := .loop
          tx := .idle
          rx := .idle
          sendingFailed := false
          receivingFailed := false
          wire := [] }

variable {cfg : Config disksize} {remote : File} {f g : Fwd disksize}

theorem push_trans {e : Entry disksize} (h : f.pushStep e = some g) :
    Trans cfg remote f (.push e) g := by
  cases e with
  | stop => cases h
  | exit k b =>
    cases h
    exact .pushExit k b
  | req p =>
    simp only [Fwd.pushStep] at h
    split at h
    · rename_i hp
      cases h
      rw [hp]
      exact .pushReq p.call
    · cases h

theorem txPop_trans {sent : Bool} (htx : f.tx = .idle) (h : f.txStep sent = some g) :
    Trans cfg remote f (.tx sent) g := by
  simp only [Fwd.txStep, htx] at h
  split at h
  · cases h
  rename_i e rest hq
  cases h
  cases e with
  | req p =>
    cases hp : p.prepareDone with
    | true =>
      simp only [hp, if_true]
      refine .txPop sent (.req p) rest htx hq ?_
      intro p' he
      cases he
      exact hp
    | false =>
      simp only [hp, Bool.false_eq_true, if_false]
      exact .txPopFresh sent p rest htx hq hp
  | stop => exact .txPop sent .stop rest htx hq (by simp)
  | exit k b => exact .txPop sent (.exit k b) rest htx hq (by simp)

theorem txGot_trans {sent : Bool} {e : Entry disksize} (htx : f.tx = .got e) :
    Trans cfg remote f (.tx sent) (f.txGot e) := by
  cases e with
  | stop => exact .txStop sent htx
  | exit k b => exact .txExit sent k b htx
  | req p =>
    simp only [Fwd.txGot]
    split
    · rename_i hp
      exact .txAgain sent p htx hp
    · rename_i hp
      have hp : p.prepareDone = false := by simpa using hp
      unfold Fwd.startPrepare
      dsimp only
      split
      · rename_i hr
        split
        · exact .txStartWrite sent p htx hp hr
        · exact .abort _
      · rename_i hr
        exact .txStartRead sent p htx hp (.inl hr)
      · rename_i hr
        exact .txStartRead sent p htx hp (.inr hr)
      · rename_i hw hr hc
        refine .txPlain sent p htx hp fun hm => ?_
        rcases hm with h | h | h
        · exact hr h
        · exact hc h
        · exact hw h

theorem tx_trans {sent : Bool} (h : f.txStep sent = some g) :
    Trans cfg remote f (.tx sent) g := by
  cases htx : f.tx with
  | idle => exact txPop_trans htx h
  | got e =>
    simp only [Fwd.txStep, htx] at h
    cases h
    exact txGot_trans htx
  | readLoop p i =>
    simp only [Fwd.txStep, htx, Fwd.txReadLoop] at h
    cases h
    split
    · rename_i hi
      split
      · rename_i bm req hb
        exact .txReadBlock sent p i bm req htx hi hb
      · exact .abort _
    · exact .txReadDone sent p i htx (by omega)
  | writeLoop p getStart getEnd i =>
    simp only [Fwd.txStep, htx, Fwd.txWriteLoop] at h
    cases h
    split
    · rename_i hi
      split
      · rename_i bm hb
        exact .txWriteBlock sent p getStart getEnd i bm htx hi hb
      · exact .abort _
    · split
      · exact .txWriteDone sent p getStart getEnd i htx (by omega)
      · exact .abort _
  | send p i =>
    simp only [Fwd.txStep, htx, Fwd.txSend] at h
    cases h
    split
    · rename_i rr hrr
      split
      · cases sent with
        | true => exact .txSent p i rr htx hrr
        | false => exact .txSendFailed p i rr htx hrr
      · exact .abort _
    · rename_i hrr
      exact .txPass sent p i htx hrr
  | exited => simp [Fwd.txStep, htx] at h

theorem rxRecv_trans {p : Priv disksize} {mbr : MmapBlockRegion} {i : Nat} {rr : ReadReq}
    {ev : RecvEvent} (hrx : f.rx = .recv p mbr i) (hrr : p.req[i]? = some rr)
    (h : Fwd.rxRecv remote f p mbr i rr ev = some g) : Trans cfg remote f (.rx ev) g := by
  cases ev with
  | reply =>
    simp only [Fwd.rxRecv] at h
    split at h
    · rename_i hw
      cases h
      exact .rxReply p mbr i rr hrx hrr hw.1
    · cases h
  | stray bytes =>
    simp only [Fwd.rxRecv] at h
    split at h
    · rename_i hw
      cases h
      exact .rxStray p mbr i rr bytes hrx hrr hw.1 (by omega)
    · cases h
  | failed bytes =>
    simp only [Fwd.rxRecv] at h
    split at h
    · rename_i hlen
      cases h
      exact .rxFailed p mbr i rr bytes hrx hrr hlen
    · cases h

theorem rxFinish_trans {p : Priv disksize} {mbr : MmapBlockRegion} {i : Nat} {ev : RecvEvent}
    (hrx : f.rx = .recv p mbr i) (hrr : p.req[i]? = none) :
    Trans cfg remote f (.rx ev) (f.rxFinish p mbr) := by
  unfold Fwd.rxFinish
  dsimp only
  split
  · rename_i hp
    have hor : p.needRetry = true ∨ f.receivingFailed = true := by simpa using hp
    rw [hp]
    exact .rxPark ev p mbr i hrx hrr hor
  · rename_i hp
    obtain ⟨hn, hf⟩ : p.needRetry = false ∧ f.receivingFailed = false := by simpa using hp
    have hsame : { p with needRetry := p.needRetry || f.receivingFailed } = p := by
      rw [hf, Bool.or_false]
    rw [hsame]
    have hplain : ∀ cache readBuff, p.call.request.iotype ≠ .flush →
        (mbr.iobuf.toNat = p.call.request.start →
          cache = FlatDisk.flatStep f.cache p.call.request) →
        (mbr.iobuf.toNat = p.call.request.start → p.call.request.iotype = .read →
          readBuff = slice f.cache p.call.request.start p.call.request.iolen) →
        Trans cfg remote f (.rx ev)
          { f with
            cache := cache
            rx := .hand (.req { p with readBuff := readBuff })
            executed := f.executed ++ [p.call] } :=
      fun cache readBuff => .rxExecute ev p mbr i cache readBuff hrx hrr hn hf
    unfold Fwd.rxExecute
    dsimp only
    split
    · rename_i hr
      exact hplain _ _ (by simp [hr]) (fun _ => by simp [FlatDisk.flatStep, hr])
        fun he _ => by rw [he]
    · rename_i hr
      exact hplain _ p.readBuff (by simp [hr]) (fun he => by simp [FlatDisk.flatStep, hr, he])
        fun _ h => by simp [hr] at h
    · rename_i hr
      exact hplain _ p.readBuff (by simp [hr]) (fun he => by simp [FlatDisk.flatStep, hr])
        fun _ h => by simp [hr] at h
    · rename_i hr
      exact .rxFlush ev p mbr i hrx hrr hn hf hr
    · rename_i hr
      exact hplain _ p.readBuff (by simp [hr]) (fun he => by simp [FlatDisk.flatStep, hr])
        fun _ h => by simp [hr] at h
    · exact .abort _

theorem rx_trans {ev : RecvEvent} (h : Fwd.rxStep cfg remote f ev = some g) :
    Trans cfg remote f (.rx ev) g := by
  cases hrx : f.rx with
  | idle =>
    simp only [Fwd.rxStep, hrx, Fwd.rxPop] at h
    split at h
    · cases h
    · rename_i rest hq
      cases h
      exact .rxStop ev rest hrx hq
    · rename_i k b rest hq
      cases h
      exact .rxExit ev k b rest hrx hq
    · rename_i p rest hq
      split at h
      · rename_i mbr hm
        cases h
        exact .rxTake ev p rest mbr hrx hq hm
      · cases h
        exact .abort _
  | recv p mbr i =>
    simp only [Fwd.rxStep, hrx] at h
    split at h
    · rename_i rr hrr
      exact rxRecv_trans hrx hrr h
    · rename_i hrr
      cases h
      exact rxFinish_trans hrx hrr
  | flushing p synced =>
    simp only [Fwd.rxStep, hrx] at h
    cases h
    exact .rxSync ev p synced hrx
  | hand e =>
    simp only [Fwd.rxStep, hrx] at h
    cases h
    exact .rxHand ev e hrx
  | exited => simp [Fwd.rxStep, hrx] at h

/-- Every step is one of the transitions. -/
theorem step_trans {a : Action disksize} (h : step cfg remote f a = some g) :
    Trans cfg remote f a g := by
  cases a with
  | push e =>
    simp only [step] at h
    split at h
    · cases h
    · exact push_trans h
  | tx sent =>
    simp only [step] at h
    split at h
    · cases h
    · exact tx_trans h
  | rx ev =>
    simp only [step] at h
    split at h
    · cases h
    · exact rx_trans h
  | stop final =>
    simp only [step] at h
    split at h
    · rename_i hm
      cases h
      exact .stop final hm.2
    · cases h
  | joined =>
    simp only [step] at h
    split at h
    · rename_i final hm
      split at h
      · rename_i hex
        cases h
        exact .joined final hm hex.2.1 hex.2.2
      · cases h
    · cases h
  | requeue =>
    simp only [step] at h
    split at h
    · rename_i hm
      cases h
      unfold Fwd.requeueStep
      split
      · rename_i p rest hq
        exact .requeue p rest hm.2 hq
      · rename_i hq
        exact .restart hm.2 hq
    · cases h

end Xnbd.Transitions
