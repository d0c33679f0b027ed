import Xnbd.Coherence
import Xnbd.Run

/-!
# The cache file follows the reference disk

`forwarder_rx` lags behind the bitmap, but it carries the requests out in the
order in which they were prepared. The cache file therefore holds the marked
blocks of the reference disk after the requests carried out so far, whatever
replies of a failed connection were stored on the way, and each request handed
to its session was answered from that disk.
-/
namespace Xnbd.CacheFile

open CInt Block Bitmap Bytes Nbd Requests FlatDisk Forwarder Reference Deferred Transitions Pipeline
  Coherence Run

variable {disksize : Nat}

section Answered

variable {R : RefDisk} {executed : List (Call disksize)} {p : Priv disksize}

/-- The request was carried out as number `seqnum`, and a READ took the bytes of
the reference disk at that point. -/
def Answered (R : RefDisk) (executed : List (Call disksize)) (p : Priv disksize) : Prop :=
  executed[p.seqnum]? = some p.call ∧ (p.call.request.iotype = .read →
    p.readBuff = slice (refRun R (executed.take p.seqnum)).bytes p.call.request.start
      p.call.request.iolen)

/-- Later requests do not change what was answered. -/
theorem Answered.append (h : Answered R executed p) (later : List (Call disksize)) :
    Answered R (executed ++ later) p := by
  have hlt : p.seqnum < executed.length := (List.getElem?_eq_some_iff.mp h.1).1
  refine ⟨by rw [List.getElem?_append_left hlt]; exact h.1, fun hr => ?_⟩
  rw [List.take_append_of_le_length (by omega)]
  exact h.2 hr

theorem answered_last (hn : p.seqnum = executed.length)
    (hr : p.call.request.iotype = .read → p.readBuff =
      slice (refRun R executed).bytes p.call.request.start p.call.request.iolen) :
    Answered R (executed ++ [p.call]) p := by
  refine ⟨by simp [hn], fun h => ?_⟩
  rw [hn, List.take_left]
  exact hr h

end Answered

section Held

variable {R : RefDisk} {f : Fwd disksize} {p : Priv disksize}

/-- The request that `forwarder_rx` works on was prepared behind those that are
carried out or parked. -/
theorem held_prepared (hm : f.main ≠ .requeue) (h : Order R f) (hp : rxHeld f.rx = [p]) :
    PreparedAt (refRun R (f.executed ++ f.fwdRetryQueue.map Priv.call)) p.call.request p.req ∧
      p.seqnum = f.executed.length + f.fwdRetryQueue.length := by
  have hchain := h.chain
  rw [pending, pipe_running hm, rxLine, hp, List.append_assoc, List.map_append] at hchain
  have hok := chain_mem (s := (refRun R f.executed, f.executed.length)) hchain
  rw [foldl_lineStep, List.map_map, ← refRun_append, List.length_map] at hok
  exact hok

/-- A request that is carried out was prepared at the present reference disk. -/
theorem held_next (hc : Control f) (hf : Failing f) (h : Order R f) (hp : rxHeld f.rx = [p])
    (hx : f.rx.isExited = false) (hn : p.needRetry = false) (hr : f.receivingFailed = false) :
    PreparedAt (refRun R f.executed) p.call.request p.req ∧ p.seqnum = f.executed.length := by
  have hrun := hc.running (.inr hx)
  have hnil := hf.unparked hrun (p := p) (by simp [rxLine, hp]) hn hr
  have hprep := held_prepared hrun h hp
  simpa [hnil] using hprep

/-- A block that it fetches is not one of the reference disk's blocks yet. -/
theorem held_unmarked (hm : f.main ≠ .requeue) (h : Order R f) (hp : rxHeld f.rx = [p]) {b : Nat}
    (hb : Fetches p.req b) : (refRun R f.executed).marked b = false := by
  have hprep := (held_prepared hm h hp).1.unmarked hb
  rw [refRun_append] at hprep
  by_contra hmk
  rw [marked_mono _ (by simpa using hmk)] at hprep
  cases hprep

end Held

section Contents

variable {cfg : Config disksize} {remote : File} {R : RefDisk} {f g : Fwd disksize}
  {a : Action disksize}

/-- The cache file, the mapping and the replies received so far. -/
structure Contents (cfg : Config disksize) (remote : File) (R : RefDisk) (f : Fwd disksize) :
    Prop where
  settled : Settled disksize (refRun R f.executed) f.cache remote
  mapped : ∀ p mbr i, f.rx = .recv p mbr i → mmapBlockRegionCreate cfg.pagesize disksize
    p.call.request.iofrom p.call.request.iolen = some mbr
  fetched : ∀ p mbr i, f.rx = .recv p mbr i → p.needRetry = false → f.receivingFailed = false →
    ∀ x < disksize, Fetches (p.req.take i) (x / cblocksize) → f.cache x = remote x
  answered : ∀ p, f.rx = .hand (.req p) ∨ .req p ∈ f.handed → Answered R f.executed p

theorem initial_contents (cbitmap : Words) (cache : File) :
    Contents cfg remote (refOf cbitmap cache remote) (initial cbitmap cache : Fwd disksize) := by
  refine ⟨refOf_settled cbitmap cache remote, ?_, ?_, ?_⟩
  · intro p mbr i hrx
    cases hrx
  · intro p mbr i hrx
    cases hrx
  · intro p hp
    simp [initial] at hp

/-- Steps that carry nothing out and leave the cache file alone. -/
theorem Contents.keep (h : Contents cfg remote R f)
    (hg : g.cache = f.cache ∧ g.executed = f.executed ∧ g.handed = f.handed)
    (hrx : g.rx = f.rx ∧ g.receivingFailed = f.receivingFailed ∨
      (∀ p mbr i, g.rx ≠ .recv p mbr i) ∧ ∀ p, g.rx ≠ .hand (.req p)) :
    Contents cfg remote R g := by
  obtain ⟨hcache, hexec, hhand⟩ := hg
  refine ⟨by rw [hcache, hexec]; exact h.settled, ?_, ?_, ?_⟩
  · intro p mbr i hr
    rcases hrx with ⟨hrx, -⟩ | ⟨hrx, -⟩
    · exact h.mapped p mbr i (hrx ▸ hr)
    · exact absurd hr (hrx p mbr i)
  · intro p mbr i hr
    rw [hcache]
    rcases hrx with ⟨hrx, hf⟩ | ⟨hrx, -⟩
    · rw [hf]
      exact h.fetched p mbr i (hrx ▸ hr)
    · exact absurd hr (hrx p mbr i)
  · intro p hp
    rw [hexec]
    apply h.answered
    rw [hhand] at hp
    rcases hp with hp | hp
    · rcases hrx with ⟨hrx, -⟩ | ⟨-, hrx⟩
      · exact .inl (hrx ▸ hp)
      · exact absurd hp (hrx p)
    · exact .inr hp

/-- A reply is stored at the offset it was asked for. -/
theorem Contents.place (h : Contents cfg remote R f) {p : Priv disksize} {mbr : MmapBlockRegion}
    {i : Nat} (hrx : f.rx = .recv p mbr i) (off : Nat) :
    (mbr.baIobuf + ((off : Int) - mbr.baIofrom)).toNat = off := by
  obtain ⟨-, hbuf, hfrom⟩ := mmapBlockRegionCreate_pointers (h.mapped p mbr i hrx)
  omega

/-- Whatever is stored at a reply's place, the blocks of the reference disk are
not touched. -/
theorem Contents.undisturbed (h : Contents cfg remote R f) (hd : disksize ≤ offMax)
    (hm : f.main ≠ .requeue) (ho : Order R f) {p : Priv disksize} {mbr : MmapBlockRegion} {i : Nat}
    {rr : ReadReq} (hrx : f.rx = .recv p mbr i) (hrr : p.req[i]? = some rr) {bytes : List UInt8}
    (hlen : bytes.length ≤ (remoteRange disksize rr).2) :
    Settled disksize (refRun R f.executed)
      (store f.cache (remoteRange disksize rr).1 bytes) remote := by
  apply h.settled.store
  intro x hx hlo hhi
  have hb : rr.bindexIofrom ≤ x / cblocksize ∧ x / cblocksize < rr.bindexIofrom + rr.bindexIolen :=
    (remoteRange_bytes hd hx).mp ⟨hlo, by omega⟩
  exact held_unmarked hm ho (p := p) (by rw [hrx]; rfl) ⟨rr, List.mem_of_getElem? hrr, hb⟩

/-- A reply of the live connection brings the blocks it was asked for. -/
theorem Contents.receive (h : Contents cfg remote R f) (hd : disksize ≤ offMax) {p : Priv disksize}
    {mbr : MmapBlockRegion} {i : Nat} {rr : ReadReq} (hrx : f.rx = .recv p mbr i)
    (hrr : p.req[i]? = some rr) (hn : p.needRetry = false) (hf : f.receivingFailed = false)
    {x : Nat} (hx : x < disksize) (hb : Fetches (p.req.take (i + 1)) (x / cblocksize)) :
    store f.cache (remoteRange disksize rr).1
      (slice remote (remoteRange disksize rr).1 (remoteRange disksize rr).2) x = remote x := by
  by_cases hin : (remoteRange disksize rr).1 ≤ x ∧
      x < (remoteRange disksize rr).1 + (remoteRange disksize rr).2
  · rw [store_slice_inside _ _ hin.1 hin.2, Nat.add_sub_of_le hin.1]
  · rw [store_outside (by rw [slice_length]; omega)]
    apply h.fetched p mbr i hrx hn hf x hx
    rw [List.take_add_one, hrr, Option.toList_some, fetches_append, fetches_one] at hb
    exact hb.resolve_right fun hb => hin ((remoteRange_bytes hd hx).mpr hb)

/-- Bytes are received for entry `rr`, and the thread goes on to entry `j`. -/
theorem Contents.stored (hd : disksize ≤ offMax) (hc : Control f) (ho : Order R f)
    (h : Contents cfg remote R f) {p : Priv disksize} {mbr : MmapBlockRegion} {i j : Nat}
    {rr : ReadReq} (hrx : f.rx = .recv p mbr i) (hrr : p.req[i]? = some rr) {bytes : List UInt8}
    (hlen : bytes.length ≤ (remoteRange disksize rr).2)
    (hg : g.cache = store f.cache
        (mbr.baIobuf + ((remoteRange disksize rr).1 - mbr.baIofrom)).toNat bytes ∧
      g.executed = f.executed ∧ g.handed = f.handed ∧ g.rx = .recv p mbr j)
    (hfetched : p.needRetry = false → g.receivingFailed = false → ∀ x < disksize,
      Fetches (p.req.take j) (x / cblocksize) →
        store f.cache (remoteRange disksize rr).1 bytes x = remote x) :
    Contents cfg remote R g := by
  have hrun := hc.running (.inr (by simp [hrx, RxPc.isExited]))
  obtain ⟨hcache, hexec, hhanded, hgrx⟩ := hg
  rw [h.place hrx] at hcache
  refine ⟨?_, ?_, ?_, ?_⟩
  · rw [hcache, hexec]
    exact h.undisturbed hd hrun ho hrx hrr hlen
  · intro p' mbr' i' hrx'
    cases hgrx.symm.trans hrx'
    exact h.mapped p mbr i hrx
  · intro p' mbr' i' hrx' hn hr x hx hb
    cases hgrx.symm.trans hrx'
    rw [hcache]
    exact hfetched hn hr x hx hb
  · intro p' hp'
    rw [hgrx, hhanded] at hp'
    rw [hexec]
    exact h.answered p' (.inr (by simpa using hp'))

/-- A request that is carried out lies inside the disk. -/
theorem Contents.inRange (h : Contents cfg remote R f) {p : Priv disksize} {mbr : MmapBlockRegion}
    {i : Nat} (hrx : f.rx = .recv p mbr i) : 0 ≤ p.call.request.iofrom := by
  have hadm := p.call.request.admitted
  exact (mmapBlockRegionCreate_range cfg.page_max cfg.page_pos cfg.size_max hadm.lower hadm.upper
    hadm.length hadm.within (h.mapped p mbr i hrx)).1

theorem step_contents (hd : disksize ≤ offMax) (hc : Control f) (hf : Failing f)
    (hw : WireInv f) (hfl : Flushing f) (ho : Order R f) (h : Contents cfg remote R f)
    (ht : Trans cfg remote f a g) : Contents cfg remote R g := by
  cases ht with
  | rxStop | rxPark | rxFlush | rxExit | restart =>
    exact h.keep ⟨rfl, rfl, rfl⟩ (.inr ⟨fun _ _ _ => by simp, fun _ => by simp⟩)
  | rxTake ev p rest mbr hrx hq hm =>
    refine ⟨h.settled, ?_, ?_, fun p' hp' => h.answered p' (.inr (by simpa using hp'))⟩
    · intro p' mbr' i' hrx'
      cases hrx'
      exact hm
    · intro p' mbr' i' hrx' _ _ x _ hb
      cases hrx'
      simp at hb
  | rxReply p mbr i rr hrx hrr hhead =>
    exact h.stored hd hc ho hrx hrr (by simp) ⟨rfl, rfl, rfl, rfl⟩ fun hn hr x hx hb =>
      h.receive hd hrx hrr hn hr hx hb
  | rxStray p mbr i rr bytes hrx hrr hbad hlen =>
    refine h.stored hd hc ho hrx hrr hlen ⟨rfl, rfl, rfl, rfl⟩ fun hn hr => ?_
    rcases hbad with hbad | hbad | hbad
    · simp [hn] at hbad
    · exact absurd hbad (Bool.eq_false_iff.mp hr)
    · exact absurd (hw.in_step hrx hrr hn hr) hbad
  | rxFailed p mbr i rr bytes hrx hrr hlen =>
    refine h.stored hd hc ho hrx hrr hlen ⟨rfl, rfl, rfl, rfl⟩ fun hn hr => ?_
    cases hr
  | rxExecute ev p mbr i cache readBuff hrx hrr hn hr hnf hcache hbuff =>
    obtain ⟨hprep, hseq⟩ := held_next hc hf ho (by rw [hrx]; rfl) (by rw [hrx]; rfl) hn hr
    have h0 := h.inRange hrx
    have hplace : mbr.iobuf.toNat = p.call.request.start := by
      rw [(mmapBlockRegionCreate_pointers (h.mapped p mbr i hrx)).1]
      rfl
    have hfetch : ∀ x < disksize, Fetches p.req (x / cblocksize) → f.cache x = remote x := by
      have hall := h.fetched p mbr i hrx hn hr
      rw [List.take_of_length_le (List.getElem?_eq_none_iff.mp hrr)] at hall
      exact hall
    refine ⟨?_, by simp, by simp, ?_⟩
    · rw [hcache hplace, refRun_append]
      exact settled_execute hd h.settled hprep h0 hfetch
    · rintro p' (hp' | hp')
      · cases hp'
        refine answered_last (p := { p with readBuff := readBuff }) hseq fun hread => ?_
        rw [← settled_read hd h.settled hprep h0 hread hfetch]
        exact hbuff hplace hread
      · exact (h.answered p' (.inr hp')).append _
  | rxSync ev p synced hrx =>
    obtain ⟨hn, hr, hflush, -⟩ := hfl p synced hrx
    obtain ⟨hprep, hseq⟩ := held_next hc hf ho (by rw [hrx]; rfl) (by rw [hrx]; rfl) hn hr
    have hreq : p.req = [] := hprep.others (by simp [Marks, hflush])
    have h0 : 0 ≤ p.call.request.iofrom := by rw [(p.call.request.admitted.flush hflush).1]
    refine ⟨?_, by simp, by simp, ?_⟩
    · have hexec := settled_execute hd h.settled hprep h0 (by simp [hreq])
      rw [refRun_append]
      simpa [flatStep, hflush] using hexec
    · rintro p' (hp' | hp')
      · cases hp'
        exact answered_last hseq (by simp [hflush])
      · exact (h.answered p' (.inr hp')).append _
  | rxHand ev e hrx =>
    refine ⟨h.settled, by simp, by simp, fun p hp => h.answered p ?_⟩
    simp only [reduceCtorEq, List.mem_append, List.mem_singleton, false_or] at hp
    rcases hp with hp | hp
    · exact .inr hp
    · exact .inl (hp ▸ hrx)
  | _ => exact h.keep ⟨rfl, rfl, rfl⟩ (.inl ⟨rfl, rfl⟩)

end Contents

section Numbered

variable {cfg : Config disksize} {remote : File} {R : RefDisk} {f g : Fwd disksize}
  {a : Action disksize}

/-- The entry that `forwarder_rx` is about to hand over. -/
def rxHands : RxPc disksize → List (Entry disksize)
  | .hand e => [e]
  | _ => []

/-- The requests handed over carry the numbers 0, 1, 2, ... in this order. -/
def Numbered (f : Fwd disksize) : Prop :=
  (privs (f.handed ++ rxHands f.rx)).map Priv.seqnum = List.range f.executed.length

theorem initial_numbered (cbitmap : Words) (cache : File) :
    Numbered (initial cbitmap cache : Fwd disksize) := rfl

theorem Numbered.keep (h : Numbered f) (hh : privs (g.handed ++ rxHands g.rx) =
    privs (f.handed ++ rxHands f.rx)) (hx : g.executed = f.executed) : Numbered g := by
  unfold Numbered
  rw [hh, hx]
  exact h

/-- The request that was just carried out is the next one to hand over. -/
theorem Numbered.execute (h : Numbered f) {p : Priv disksize} (hf : rxHands f.rx = [])
    (hg : rxHands g.rx = [.req p]) (hh : g.handed = f.handed)
    (hx : g.executed = f.executed ++ [p.call]) (hn : p.seqnum = f.executed.length) :
    Numbered g := by
  unfold Numbered at h ⊢
  rw [hf, List.append_nil] at h
  rw [hh, hg, hx, privs_append, List.map_append, h, List.length_append, List.length_singleton,
    List.range_succ, ← hn]
  rfl

theorem step_numbered (hc : Control f) (hf : Failing f) (hfl : Flushing f) (ho : Order R f)
    (h : Numbered f) (ht : Trans cfg remote f a g) : Numbered g := by
  cases ht with
  | rxExecute ev p mbr i cache readBuff hrx hrr hn hr hnf hcache hbuff =>
    have hseq := (held_next hc hf ho (by rw [hrx]; rfl) (by rw [hrx]; rfl) hn hr).2
    exact h.execute (p := { p with readBuff := readBuff }) (by simp [hrx, rxHands]) rfl rfl rfl hseq
  | rxSync ev p synced hrx =>
    obtain ⟨hn, hr, -⟩ := hfl p synced hrx
    have hseq := (held_next hc hf ho (by rw [hrx]; rfl) (by rw [hrx]; rfl) hn hr).2
    exact h.execute (p := p) (by simp [hrx, rxHands]) rfl rfl rfl hseq
  | rxStop ev rest hrx hq
  | rxExit ev k b rest hrx hq
  | rxTake ev p rest mbr hrx hq hm
  | rxReply p mbr i rr hrx hrr hhead
  | rxStray p mbr i rr bytes hrx hrr hbad hlen
  | rxFailed p mbr i rr bytes hrx hrr hlen
  | rxPark ev p mbr i hrx hrr hp
  | rxFlush ev p mbr i hrx hrr hp hr hflush
  | rxHand ev e hrx => exact h.keep (by simp [rxHands, hrx]) rfl
  | restart hm hq =>
    have hrx := exited_of_rxIsExited (hc.parked (.inl hm)).2
    exact h.keep (by simp [rxHands, hrx]) rfl
  | _ => exact h.keep rfl rfl

end Numbered

section Coherent

variable {cfg : Config disksize} {remote : File} {R : RefDisk} {f g : Fwd disksize}
  {a : Action disksize}

/-- Everything that holds of the forwarder between two steps. -/
structure Coherent (cfg : Config disksize) (remote : File) (R : RefDisk) (f : Fwd disksize) :
    Prop where
  control : Control f
  shape : Shape f
  failing : Failing f
  wire : WireInv f
  flushing : Flushing f
  marking : Marking R f
  order : Order R f
  contents : Contents cfg remote R f
  numbered : Numbered f

theorem initial_coherent {cbitmap : Words} {cache : File}
    (h : cbitmap.length = bitsToLongs (getDiskNblocks disksize)) :
    Coherent cfg remote (refOf cbitmap cache remote) (initial cbitmap cache : Fwd disksize) where
  control := initial_control cbitmap cache
  shape := initial_shape cbitmap cache
  failing := initial_failing cbitmap cache
  wire := initial_wire cbitmap cache
  flushing := initial_flushing cbitmap cache
  marking := initial_marking h
  order := initial_order _ cbitmap cache
  contents := initial_contents cbitmap cache
  numbered := initial_numbered cbitmap cache

theorem step_coherent (h : Coherent cfg remote R f) (ho : Orderly f a)
    (hs : step cfg remote f a = some g) : Coherent cfg remote R g where
  control := step_control h.control (step_trans hs)
  shape := step_shape h.control h.shape ho (step_trans hs)
  failing := step_failing h.control h.shape h.failing (step_trans hs)
  wire := step_wire h.control h.shape h.failing h.wire (step_trans hs)
  flushing := step_flushing h.flushing (step_trans hs)
  marking := step_marking cfg.size_max h.control h.shape h.marking (step_trans hs)
  order := step_order cfg.size_max h.control h.shape h.failing h.flushing h.marking h.order
    (step_trans hs)
  contents := step_contents cfg.size_max h.control h.failing h.wire h.flushing h.order h.contents
    (step_trans hs)
  numbered := step_numbered h.control h.failing h.flushing h.order h.numbered (step_trans hs)

end Coherent

end Xnbd.CacheFile
