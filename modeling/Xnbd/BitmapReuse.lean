import Xnbd.Durability
import Xnbd.Negotiate

/-!
# A bitmap that is kept for the next run (`bitmap_open_file`, `proxy_initialize`)

Without `--clear-bitmap` the proxy takes over the bitmap and the cache file of the run
before. The only thing that is compared is the size of the bitmap file, which is the
number of blocks rounded up to words. The disk may therefore have another size than
before, and its last block may have been a short one.
-/
namespace Xnbd.BitmapReuse

open CInt Block Bitmap Bytes Nbd Requests FlatDisk Forwarder Reference Transitions Pipeline
  Coherence CacheFile Proxy Sessions Linear Run Negotiate

variable {disksize : Nat}

section Model

/-- `bitmap_open_file` has nothing to map, ends the process, or returns the mapping. -/
inductive BitmapOpen where
  | null
  | denied
  | opened (bm : Words)
  deriving DecidableEq, Repr

/-- `sizeof(unsigned long)`. -/
def sizeofLong : Nat := 8

/-- The bitmap file is the list of its words, empty if the file does not exist yet. A
file that is not made of whole words has a wrong size like any other. -/
def bitmapOpenFile (file : Words) (nbits : Nat) (readonly zeroclear : Bool) : BitmapOpen :=
  let narrays := bitsToLongs nbits
  let size := sizeofLong * file.length
  let buflen := sizeofLong * narrays
  if nbits = 0 then .null
  else if size ≠ buflen then
    if readonly then .denied
    else if size ≠ 0 ∧ zeroclear = false then .denied
    else .opened (List.replicate narrays 0)
  else if zeroclear then
    if readonly then .denied else .opened (List.replicate narrays 0)
  else .opened file

/-- The two files of a proxy. `regular` is false for a block device, which `ftruncate`
refuses to resize. -/
structure Files where
  bitmap : Words
  cache : File
  cacheSize : Nat
  regular : Bool

/-- `ftruncate` to a larger size: what is added reads as zero. -/
def Files.grow (files : Files) (size : Nat) : Files :=
  { files with
    cache := fun x => if x < files.cacheSize then files.cache x else 0
    cacheSize := size }

/-- The files as `proxy_initialize` leaves them; `none` is the `err()` of a start-up that
is refused. The forwarder never gets to a bitmap of no blocks. -/
def proxyInitialize (files : Files) (disksize : Nat) (clearBitmap : Bool) : Option Files :=
  let sized (bm : Words) : Option Files :=
    if files.cacheSize < disksize then
      if files.regular then some { files.grow disksize with bitmap := bm } else none
    else some { files with bitmap := bm }
  match bitmapOpenFile files.bitmap (getDiskNblocks disksize) false clearBitmap with
  | .denied => none
  | .null => sized []
  | .opened bm => sized bm

/-- The files as `proxy_shutdown` leaves them. -/
def Files.after (files : Files) (s : State disksize) : Files :=
  { files with bitmap := s.fwd.cbitmap, cache := s.fwd.cache }

/-- A remote disk of which nothing is cached. -/
def uncached (remote : File) : RefDisk := ⟨remote, fun _ => false⟩

end Model

section Start

variable {files files' : Files} {clear : Bool}

/-- A new or cleared bitmap is all zero and as long as the disk needs it; the cache file
is at least as long as the disk. -/
theorem proxyInitialize_new (hpos : 0 < disksize) (hnew : clear = true ∨ files.bitmap = [])
    (h : proxyInitialize files disksize clear = some files') :
    files'.bitmap = List.replicate (bitsToLongs (getDiskNblocks disksize)) 0 ∧
      disksize ≤ files'.cacheSize := by
  have hn := getDiskNblocks_pos hpos
  have hwords : bitsToLongs (getDiskNblocks disksize) ≠ 0 := by
    unfold bitsToLongs
    omega
  have hopen : bitmapOpenFile files.bitmap (getDiskNblocks disksize) false clear =
      .opened (List.replicate (bitsToLongs (getDiskNblocks disksize)) 0) := by
    simp only [bitmapOpenFile, Nat.ne_of_gt hn, if_false, Bool.false_eq_true]
    cases hnew with
    | inl hc => simp [hc]
    | inr he =>
      have hsize : sizeofLong * ([] : Words).length ≠
          sizeofLong * bitsToLongs (getDiskNblocks disksize) := by
        simp only [sizeofLong, List.length_nil]
        omega
      rw [he, if_pos hsize]
      simp
  simp only [proxyInitialize, hopen] at h
  split at h
  · split at h
    · cases h
      exact ⟨rfl, Nat.le_refl _⟩
    · cases h
  · cases h
    exact ⟨rfl, by simp only; omega⟩

/-- A bitmap that is kept is refused exactly for the wrong number of words, or with a
cache device that is too small. -/
theorem proxyInitialize_kept (hpos : 0 < disksize) (hne : files.bitmap ≠ []) :
    (proxyInitialize files disksize false = none ∧
        (files.bitmap.length ≠ bitsToLongs (getDiskNblocks disksize) ∨
          files.regular = false ∧ files.cacheSize < disksize)) ∨
      ((files.bitmap.length = bitsToLongs (getDiskNblocks disksize) ∧
          ¬(files.regular = false ∧ files.cacheSize < disksize)) ∧
        ∃ files', proxyInitialize files disksize false = some files' ∧
          files'.bitmap = files.bitmap ∧
          ∀ x < files.cacheSize, files'.cache x = files.cache x) := by
  have hn := Nat.ne_of_gt (getDiskNblocks_pos hpos)
  have hlen : files.bitmap.length ≠ 0 := fun he => hne (List.length_eq_zero_iff.mp he)
  by_cases hw : files.bitmap.length = bitsToLongs (getDiskNblocks disksize)
  · have hopen : bitmapOpenFile files.bitmap (getDiskNblocks disksize) false false =
        .opened files.bitmap := by
      simp [bitmapOpenFile, hn, hw]
    by_cases hs : files.cacheSize < disksize
    · cases hr : files.regular with
      | false =>
        left
        exact ⟨by simp [proxyInitialize, hopen, hs, hr], .inr ⟨rfl, hs⟩⟩
      | true =>
        right
        refine ⟨⟨hw, by simp⟩, { files.grow disksize with bitmap := files.bitmap },
          by simp [proxyInitialize, hopen, hs, hr], rfl, ?_⟩
        intro x hx
        simp [Files.grow, hx]
    · right
      exact ⟨⟨hw, fun h => hs h.2⟩, files, by simp [proxyInitialize, hopen, hs], rfl,
        fun x _ => rfl⟩
  · left
    have hopen : bitmapOpenFile files.bitmap (getDiskNblocks disksize) false false = .denied := by
      simp [bitmapOpenFile, hn, hw, hlen, sizeofLong]
    exact ⟨by simp [proxyInitialize, hopen], .inl hw⟩

end Start

section Overlay

variable {R S : RefDisk} {calls : List (Call disksize)} {x : Nat}

theorem refRun_marked_congr (h : R.marked = S.marked) (calls : List (Call disksize)) :
    (refRun R calls).marked = (refRun S calls).marked := by
  induction calls generalizing R S with
  | nil => exact h
  | cons c rest ih =>
    apply ih
    funext b
    rw [refStep_marked, refStep_marked, h]

/-- A byte of the disk depends on the same byte before and on the marks. -/
theorem refRun_bytes_congr (hm : R.marked = S.marked) (hx : R.bytes x = S.bytes x)
    (calls : List (Call disksize)) : (refRun R calls).bytes x = (refRun S calls).bytes x := by
  induction calls generalizing R S with
  | nil => exact hx
  | cons c rest ih =>
    apply ih
    · exact refRun_marked_congr hm [c]
    · simp only [refStep, hm]
      split
      · exact hx
      · exact flatStep_congr c.request hx

/-- Requests inside the disk leave what is behind its end alone. -/
theorem refRun_outside (hd : disksize ≤ offMax) (hin : ∀ c ∈ calls, 0 ≤ c.request.iofrom)
    (hx : disksize ≤ x) : (refRun R calls).bytes x = R.bytes x := by
  induction calls generalizing R with
  | nil => rfl
  | cons c rest ih =>
    have hout : ¬c.request.Covers x := by
      intro hc
      have hle := start_add_le hd (hin c List.mem_cons_self)
      have hlt := hc.2
      omega
    rw [refRun_cons, ih fun c' hc' => hin c' (List.mem_cons_of_mem _ hc')]
    simp only [refStep]
    split
    · rfl
    · exact flatStep_outside hout

/-- The marks of the reference disk come from the requests. -/
theorem marked_uncached {remote : File} {b : Nat}
    (h : (refRun (uncached remote) calls).marked b = true) :
    ∃ c ∈ calls, Marks c.request ∧ c.request.InBlocks b := by
  induction calls using List.reverseRecOn with
  | nil => cases h
  | append_singleton rest c ih =>
    rw [refRun_append, refRun_cons, refRun_nil, refStep_marked, Bool.or_eq_true] at h
    cases h with
    | inl hold =>
      obtain ⟨c', hc', hm⟩ := ih hold
      exact ⟨c', List.mem_append_left _ hc', hm⟩
    | inr hnew => exact ⟨c, by simp, of_decide_eq_true hnew⟩

end Overlay

section Carried

variable {cfg : Config disksize} {remote : File} {R : RefDisk} {f g : Fwd disksize}
  {a : Action disksize} {s t : State disksize} {act : Act disksize} {r : Request disksize}

/-- A request that could be carried out: its range was mapped, and if it marked blocks
it was not the empty range at offset zero. -/
structure Mapped (r : Request disksize) : Prop where
  inside : 0 ≤ r.iofrom
  below : r.start + r.iolen + cblocksize ≤ offMax + 1
  nonempty : Marks r → 0 < r.start + r.iolen

/-- The blocks of the request are blocks of the disk. -/
theorem Mapped.lt (h : Mapped r) (hd : disksize ≤ offMax) (hm : Marks r) {b : Nat}
    (hb : r.InBlocks b) : b < getDiskNblocks disksize :=
  inBlocks_lt hd h.inside (h.nonempty hm) hb

def Carried (f : Fwd disksize) : Prop := ∀ c ∈ f.executed, Mapped c.request

theorem Carried.append (h : Carried f) {c : Call disksize} (hc : Mapped c.request)
    (hg : g.executed = f.executed ++ [c]) : Carried g := by
  intro c' hc'
  rw [hg] at hc'
  cases List.mem_append.mp hc' with
  | inl hold => exact h c' hold
  | inr hnew =>
    rw [List.mem_singleton.mp hnew]
    exact hc

theorem trans_carried (hc : Coherent cfg remote R f) (h : Carried f)
    (ht : Trans cfg remote f a g) : Carried g := by
  have hd := cfg.size_max
  cases ht with
  | rxExecute ev p mbr i cache readBuff hrx hrr hn hr hnf hcache hbuff =>
    have hprep := (held_next hc.control hc.failing hc.order (by rw [hrx]; rfl) (by rw [hrx]; rfl)
      hn hr).1
    have h0 := hc.contents.inRange hrx
    have hmap := hc.contents.mapped p mbr i hrx
    rw [iofrom_eq_start h0] at hmap
    have hbelow := (mmapBlockRegionCreate_isSome_iff cfg.pagesize hd (start_add_le hd h0)).mp
      (Option.isSome_of_mem hmap)
    exact h.append ⟨h0, hbelow, fun hm => hprep.nonempty hd hm h0⟩ rfl
  | rxSync ev p synced hrx =>
    obtain ⟨-, -, hflush, -⟩ := hc.flushing p synced hrx
    obtain ⟨hfrom, hlen⟩ := p.call.request.admitted.flush hflush
    refine h.append (c := p.call) ⟨?_, ?_, ?_⟩ rfl
    · rw [hfrom]
    · rw [Request.start, hfrom, hlen]
      decide
    · intro hm
      simp [Marks, hflush] at hm
  | _ => exact h

theorem step_carried (h : Sound cfg remote R s ∧ Carried s.fwd) (ho : Linear.Orderly s act)
    (hs : Proxy.step cfg remote s act = some t) : Sound cfg remote R t ∧ Carried t.fwd := by
  refine ⟨step_sound h.1 ho hs, ?_⟩
  rcases move_fwd (step_move hs).2 with heq | ⟨e, hf⟩ | ⟨fa, rfl, hf⟩
  · rw [heq]
    exact h.2
  · exact trans_carried h.1.coherent h.2 (step_trans hf)
  · exact trans_carried h.1.coherent h.2 (step_trans hf)

theorem run_carried {cbitmap : Words} {cache : File} {acts : List (Act disksize)}
    (hlen : cbitmap.length = bitsToLongs (getDiskNblocks disksize))
    (ho : Along (Proxy.step cfg remote) Linear.Orderly (start cbitmap cache) acts)
    (hrun : run (Proxy.step cfg remote) (start cbitmap cache) acts = some s) :
    Sound cfg remote (refOf cbitmap cache remote) s ∧ Carried s.fwd :=
  run_invariant (fun _ _ _ hI hP hs => step_carried hI hP hs)
    ⟨start_sound hlen, fun _ hc => nomatch hc⟩ ho hrun

end Carried

section Ended

variable {size₁ size₂ : Nat} {cfg : Config size₁} {remote₁ remote₂ cache : File}
  {s : State size₁} {words x b : Nat}

theorem bitmapTest_replicate (n b : Nat) : bitmapTest (List.replicate n 0) b = false := by
  rw [bitmapTest_eq, List.getD_eq_getElem?_getD, List.getElem?_replicate]
  split <;> simp

theorem refOf_cleared (words : Nat) (cache remote : File) :
    refOf (List.replicate words 0) cache remote = uncached remote := by
  have hbits : bitmapTest (List.replicate words 0) = fun _ => false :=
    funext (bitmapTest_replicate words)
  simp only [refOf, uncached, hbits, Bool.false_eq_true, if_false]

/-- The marks do not depend on what the remote disk holds. -/
theorem marked_remote (remote remote' : File) (calls : List (Call disksize)) :
    (refRun (uncached remote) calls).marked = (refRun (uncached remote') calls).marked :=
  refRun_marked_congr (R := uncached remote) (S := uncached remote') rfl calls

/-- At the end of a run that has carried everything out the bitmap is exact. -/
theorem ended_marked (h : Sound cfg remote₁ (uncached remote₁) s) (hclosed : s.fwd.main = .closed)
    (hdone : s.fwd.executed = s.fwd.entered) (remote : File) :
    bitmapTest s.fwd.cbitmap = (refRun (uncached remote) s.fwd.executed).marked := by
  have htx := exited_of_isExited (h.coherent.control.parked (.inr hclosed)).1
  have ho := h.coherent.order
  have hprep : s.fwd.prepared = s.fwd.executed := by
    have hle : s.fwd.prepared.length ≤ s.fwd.executed.length := by
      rw [hdone, ho.entered, ho.popped]
      simp only [List.length_append]
      omega
    have hbegin : s.fwd.executed <+: s.fwd.prepared := by
      rw [ho.prepared]
      exact List.prefix_append _ _
    exact (hbegin.eq_of_length_le hle).symm
  funext b
  rw [h.coherent.marking.bits b, hprep, htx]
  simp only [loopMarks, Bool.or_false]
  exact congrFun (marked_remote remote₁ remote s.fwd.executed) b

/-- The disk that the next run should show, byte by byte. -/
theorem ended_bytes (h : Sound cfg remote₁ (uncached remote₁) s) (hc : Carried s.fwd)
    (hagree : ∀ x, x < size₁ → x < size₂ → remote₂ x = remote₁ x) (hx : x < size₂) :
    (refRun (uncached remote₂) s.fwd.executed).bytes x =
      if x < size₁ ∧ (refRun (uncached remote₂) s.fwd.executed).marked (x / cblocksize) = true
      then s.fwd.cache x else remote₂ x := by
  by_cases hlt : x < size₁
  · have hset := h.coherent.contents.settled x hlt
    have hbytes : (refRun (uncached remote₂) s.fwd.executed).bytes x =
        (refRun (uncached remote₁) s.fwd.executed).bytes x :=
      refRun_bytes_congr (R := uncached remote₂) (S := uncached remote₁) rfl (hagree x hlt hx) _
    rw [hbytes, hset, marked_remote remote₂ remote₁, hagree x hlt hx]
    simp only [hlt, true_and]
  · rw [refRun_outside cfg.size_max (fun c hmem => (hc c hmem).inside) (by omega)]
    simp only [hlt, false_and, if_false, uncached]

/-- A marked block that reaches behind the end of the old disk is its last, short one. -/
theorem marked_behind (hd : size₁ ≤ offMax) (hc : Carried s.fwd) {remote : File}
    (hm : (refRun (uncached remote) s.fwd.executed).marked (x / cblocksize) = true)
    (hx : size₁ ≤ x) : x / cblocksize = size₁ / cblocksize ∧ size₁ % cblocksize ≠ 0 := by
  obtain ⟨c, hmem, hmarks, hin⟩ := marked_uncached hm
  have hlt := (hc c hmem).lt hd hmarks hin
  by_cases h0 : size₁ % cblocksize = 0
  · simp only [getDiskNblocks, h0, ne_eq, not_true_eq_false, if_false] at hlt
    simp only [cblocksize] at hlt h0
    omega
  · simp only [getDiskNblocks, h0, ne_eq, not_false_eq_true, if_true] at hlt
    refine ⟨?_, h0⟩
    simp only [cblocksize] at hlt ⊢
    omega

/-- The request that marked the last block was mapped, so its other bytes can be mapped. -/
theorem marked_below (hd : size₁ ≤ offMax) (hc : Carried s.fwd) {remote : File}
    (hm : (refRun (uncached remote) s.fwd.executed).marked (size₁ / cblocksize) = true) :
    size₁ + 1 + cblocksize ≤ offMax + 1 := by
  obtain ⟨c, hmem, hmarks, hin⟩ := marked_uncached hm
  have hmap := hc c hmem
  have hend := hin.2
  have hfits := hmap.below
  have hle := start_add_le hd hmap.inside
  rw [blockIndexEnd_eq hd hmap.inside] at hend
  simp only [offMax] at hd
  rw [getBindexEnd_natCast (hmap.nonempty hmarks) (by omega)] at hend
  simp only [cblocksize, offMax] at hend hfits ⊢
  omega

end Ended

section Reads

variable {cfg : Config disksize} {remote : File} {R S : RefDisk} {s : State disksize}

/-- Every READ that was answered got the bytes of the disk with the requests of the run
before it. -/
def ReadsFrom (R : RefDisk) (s : State disksize) : Prop :=
  ∀ (k : Nat) (ps : Session disksize), s.sessions[k]? = some ps → ∀ p ∈ ps.replied,
    p.call.request.iotype = .read → p.readBuff =
      slice (refRun R (s.fwd.executed.take p.seqnum)).bytes p.call.request.start
        p.call.request.iolen

theorem readsFrom_of_sound (h : Sound cfg remote R s) (hc : Carried s.fwd)
    (hm : R.marked = S.marked) (hb : ∀ x < disksize, R.bytes x = S.bytes x) : ReadsFrom S s := by
  intro k ps hps p hp hread
  obtain ⟨hmem, hans⟩ := (h.linearizes hps).answered p hp
  have h0 := (hc p.call (List.mem_of_getElem? hmem)).inside
  have hle := start_add_le cfg.size_max h0
  rw [hans hread]
  apply slice_congr
  intro x _ hx
  exact refRun_bytes_congr hm (hb x (by omega)) _

end Reads

section ReadByte

variable (cfg : Config disksize) (remote : File) {cache : File} {bm : Words} {x : Nat}

/-- The header of a READ of one byte. -/
def byteHeader (x : Nat) : List UInt8 := requestBytes (iotypeCode .read) x 1 0

theorem recvRequest_byte (hx : x < disksize) :
    ∃ c : Call disksize, recvRequest cfg 0 (.message (byteHeader x) none) = some (.req (.fresh c)) ∧
      c.session = 0 ∧ c.request.iotype = .read ∧ c.request.iofrom = x ∧ c.request.iolen = 1 := by
  have hmax := cfg.size_max
  simp only [offMax] at hmax
  have hsend : nbdClientSendRequestHeader (iotypeCode .read) x 1 0 = some (byteHeader x) := by
    have hok : (1 : Nat) ≤ 2 ^ 32 - 1 ∧ toUint64 ((x : Int) + (1 : Nat)) ≤ offMax ∧
        (0 : Int) ≤ x := by
      rw [toUint64_of_range (by omega) (by omega)]
      simp only [offMax]
      omega
    simp only [nbdClientSendRequestHeader]
    rw [if_pos hok, toUint64_of_range (by omega) (by omega)]
    rfl
  have hcode : iotypeCode .read ≠ 3 := by decide
  have hrecv : nbdServerRecvRequest disksize (byteHeader x) = .ok .read x 1 0 :=
    nbdServerRecvRequest_sent (by decide) (by omega) (by decide) (by decide)
      (fun he => absurd he hcode) (by omega) hsend
  simp only [recvRequest]
  split
  · rename_i iotype iofrom iolen handle hok
    rw [hrecv] at hok
    cases hok
    refine ⟨_, by simp; rfl, rfl, rfl, rfl, rfl⟩
  all_goals
    rename_i hok
    rw [hrecv] at hok
    cases hok


/-- The proxy with one session. -/
def single (f : Fwd disksize) (ps : Session disksize) (buf que : Nat) : State disksize :=
  ⟨f, [ps], buf, que, false, false⟩

/-- A step of the forwarder that hands nothing over. -/
theorem single_fwd {f g : Fwd disksize} (ps : Session disksize) (buf que : Nat)
    {a : Action disksize} (ha : f.aborted = false) (hp : ∀ e, a ≠ .push e)
    (hh : handing f a = none) (hs : Forwarder.step cfg remote f a = some g) :
    Proxy.step cfg remote (single f ps buf que) (.fwd a) = some (single g ps buf que) := by
  have hdead : (single f ps buf que).dead = false := by simp [State.dead, single, ha]
  have hfwd : fwdThread cfg remote (single f ps buf que) a = some (single g ps buf que) := by
    simp [fwdThread, single, hs, hh]
  cases a with
  | push e => exact absurd rfl (hp e)
  | _ => simpa [Proxy.step, hdead] using hfwd

theorem step_tx {f : Fwd disksize} (ha : f.aborted = false) (sent : Bool) :
    Forwarder.step cfg remote f (.tx sent) = f.txStep sent := by
  simp [Forwarder.step, ha]

theorem step_rx {f : Fwd disksize} (ha : f.aborted = false) (ev : RecvEvent) :
    Forwarder.step cfg remote f (.rx ev) = Fwd.rxStep cfg remote f ev := by
  simp [Forwarder.step, ha]

/-- The session's rx thread receives a request and pushes it. -/
theorem single_submit {c : Call disksize} {header : List UInt8}
    (hrecv : recvRequest cfg 0 (.message header none) = some (.req (.fresh c))) (bm : Words)
    (cache : File) :
    ∃ buf que, run (Proxy.step cfg remote) (start bm cache)
      (.register :: .rx 0 (.message header none) :: List.replicate 3 (.rx 0 .broken)) =
        some (single { initial bm cache with fwdTxQueue := [.req (.fresh c)], entered := [c] }
          .new buf que) := by
  have hregister : Proxy.step cfg remote (start bm cache) .register =
      some (single (initial bm cache) .new 0 0) := by
    simp [Proxy.step, State.dead, start, initial, single]
  have hmessage : Proxy.step cfg remote (single (initial bm cache) .new 0 0)
      (.rx 0 (.message header none)) =
        some (single (initial bm cache) { Session.new with rx := .wait (.req (.fresh c)) } 0 0) := by
    simp [Proxy.step, State.dead, initial, single, rxThread, Session.new, hrecv, isExit,
      State.setSession]
  have hwait : Proxy.step cfg remote
      (single (initial bm cache) { Session.new with rx := .wait (.req (.fresh c)) } 0 0)
      (.rx 0 .broken) =
        some (single (initial bm cache) { Session.new with rx := .add (.req (.fresh c)) } 0 0) := by
    simp [Proxy.step, State.dead, initial, single, rxThread, Session.new, MemUsageFits,
      State.setSession]
  obtain ⟨buf, que, hadd⟩ : ∃ buf que, Proxy.step cfg remote
      (single (initial bm cache) { Session.new with rx := .add (.req (.fresh c)) } 0 0)
      (.rx 0 .broken) =
        some (single (initial bm cache) { Session.new with rx := .push (.req (.fresh c)) } buf
          que) :=
    ⟨(memUsageAdd cfg (start bm cache) (.req (.fresh c))).curUseBuf,
      (memUsageAdd cfg (start bm cache) (.req (.fresh c))).curUseQue,
      by simp [Proxy.step, State.dead, initial, start, single, rxThread, Session.new, memUsageAdd,
        State.setSession]⟩
  have hpush : Proxy.step cfg remote
      (single (initial bm cache) { Session.new with rx := .push (.req (.fresh c)) } buf que)
      (.rx 0 .broken) =
        some (single { initial bm cache with fwdTxQueue := [.req (.fresh c)], entered := [c] }
          .new buf que) := by
    simp [Proxy.step, State.dead, initial, single, rxThread, Session.new, Forwarder.step,
      Fwd.pushStep, Priv.fresh, isExit, State.setSession]
  refine ⟨buf, que, ?_⟩
  rw [run_step hregister, run_step hmessage]
  simp only [List.replicate]
  rw [run_step hwait, run_step hadd, run_step hpush]
  rfl

/-- A READ of one block that is marked needs nothing from the remote server. -/
theorem fwd_reads (cache : File) {c : Call disksize} {mbr : MmapBlockRegion}
    (hio : c.request.iotype = .read) (hone : c.request.blockIndexEnd = c.request.blockIndexStart)
    (hin : Inside bm c.request.blockIndexStart)
    (hmarked : bitmapTest bm c.request.blockIndexStart = true)
    (hlast : c.request.blockIndexStart < 2 ^ 64 - 1)
    (hmbr : mmapBlockRegionCreate cfg.pagesize disksize c.request.iofrom c.request.iolen = some mbr)
    (ps : Session disksize) (buf que : Nat) :
    ∃ f p, run (Proxy.step cfg remote)
        (single { initial bm cache with fwdTxQueue := [.req (.fresh c)], entered := [c] } ps buf que)
        (List.replicate 5 (Act.fwd (.tx true)) ++ List.replicate 2 (Act.fwd (.rx .reply))) =
          some (single f ps buf que) ∧
      f.rx = .hand (.req p) ∧ f.aborted = false ∧ p.call = c ∧ p.seqnum = 0 ∧
      p.readBuff = slice cache mbr.iobuf.toNat c.request.iolen := by
  let f₁ : Fwd disksize :=
    { initial bm cache with fwdTxQueue := [.req (.fresh c)], entered := [c] }
  let f₂ : Fwd disksize :=
    { f₁ with fwdTxQueue := [], tx := .got (.req (.fresh c)), popped := [c] }
  let f₃ : Fwd disksize := { f₂ with tx := .readLoop (.fresh c) c.request.blockIndexStart }
  let f₄ : Fwd disksize := { f₂ with tx := .readLoop (.fresh c) (c.request.blockIndexStart + 1) }
  let p : Priv disksize := { Priv.fresh c with prepareDone := true }
  let f₅ : Fwd disksize := { f₂ with tx := .send p 0, fwdCounter := 1, prepared := [c] }
  let f₆ : Fwd disksize := { f₅ with tx := .idle, fwdRxQueue := [.req p] }
  let f₇ : Fwd disksize := { f₅ with tx := .idle, rx := .recv p mbr 0 }
  let p' : Priv disksize :=
    { p with readBuff := slice cache mbr.iobuf.toNat c.request.iolen }
  let f₈ : Fwd disksize := { f₅ with tx := .idle, rx := .hand (.req p'), executed := [c] }
  have h₁ : Fwd.txStep f₁ true = some f₂ := rfl
  have h₂ : Fwd.txStep f₂ true = some f₃ := by
    simp [f₁, f₂, f₃, Fwd.txStep, Fwd.txGot, Priv.fresh, Fwd.startPrepare, hio]
  have h₃ : Fwd.txStep f₃ true = some f₄ := by
    have hnext : (c.request.blockIndexStart + 1) % 2 ^ 64 = c.request.blockIndexStart + 1 :=
      Nat.mod_eq_of_lt (by omega)
    simp only [f₁, f₂, f₃, f₄, Fwd.txStep, Fwd.txReadLoop, Priv.fresh, hone, le_refl, if_true,
      prepareReadBlock, initial, hin, hmarked, hnext]
  have h₄ : Fwd.txStep f₄ true = some f₅ := by
    simp [f₁, f₂, f₄, f₅, p, Fwd.txStep, Fwd.txReadLoop, Priv.fresh, hone, Fwd.finishPrepare,
      initial]
  have h₅ : Fwd.txStep f₅ true = some f₆ := rfl
  have h₆ : Fwd.rxStep cfg remote f₆ .reply = some f₇ := by
    simp [f₁, f₂, f₅, f₆, f₇, p, Fwd.rxStep, Fwd.rxPop, initial, Priv.fresh, hmbr]
  have h₇ : Fwd.rxStep cfg remote f₇ .reply = some f₈ := by
    simp [f₁, f₂, f₅, f₇, f₈, p, p', Fwd.rxStep, Fwd.rxFinish, Fwd.rxExecute, initial, Priv.fresh,
      hio]
  refine ⟨f₈, p', ?_, rfl, rfl, rfl, rfl, rfl⟩
  have htx : ∀ {f g : Fwd disksize}, f.aborted = false → Fwd.txStep f true = some g →
      Proxy.step cfg remote (single f ps buf que) (.fwd (.tx true)) = some (single g ps buf que) :=
    fun ha hs => single_fwd cfg remote ps buf que ha (by simp) rfl
      (by rw [step_tx cfg remote ha, hs])
  have hrx : ∀ {f g : Fwd disksize}, f.aborted = false → handing f (.rx .reply) = none →
      Fwd.rxStep cfg remote f .reply = some g →
      Proxy.step cfg remote (single f ps buf que) (.fwd (.rx .reply)) =
        some (single g ps buf que) :=
    fun ha hh hs => single_fwd cfg remote ps buf que ha (by simp) hh
      (by rw [step_rx cfg remote ha, hs])
  simp only [List.replicate, List.cons_append, List.nil_append]
  rw [run_step (htx rfl h₁), run_step (htx rfl h₂), run_step (htx rfl h₃), run_step (htx rfl h₄),
    run_step (htx rfl h₅), run_step (hrx rfl rfl h₆), run_step (hrx rfl rfl h₇)]
  rfl

/-- The request is handed to its session and answered. -/
theorem single_answers {f : Fwd disksize} {p : Priv disksize} (hrx : f.rx = .hand (.req p))
    (ha : f.aborted = false) (hk : p.call.session = 0) (hfits : ReplyFits p) (buf que : Nat) :
    ∃ t ps, run (Proxy.step cfg remote) (single f .new buf que)
        (.fwd (.rx .reply) :: List.replicate 2 (.tx 0 true)) = some t ∧
      t.sessions[0]? = some ps ∧ ps.replied = [p] := by
  let ps₁ : Session disksize :=
    { Session.new with txQueue := [.req p], pushed := [.req p] }
  let ps₂ : Session disksize := { ps₁ with txQueue := [], tx := .send p }
  let ps₃ : Session disksize := { ps₂ with tx := .release (.req p), replied := [p] }
  let g : Fwd disksize := { f with rx := .idle, handed := f.handed ++ [.req p] }
  have hstep : Forwarder.step cfg remote f (.rx .reply) = some g := by
    simp [step_rx cfg remote ha, Fwd.rxStep, hrx, g]
  have hhand : Proxy.step cfg remote (single f .new buf que) (.fwd (.rx .reply)) =
      some (single g ps₁ buf que) := by
    simp [Proxy.step, State.dead, single, ha, fwdThread, hstep, handing, hrx, deliver, session?, hk,
      State.setSession, Session.new, ps₁]
  have hpop : Proxy.step cfg remote (single g ps₁ buf que) (.tx 0 true) =
      some (single g ps₂ buf que) := by
    simp [Proxy.step, State.dead, single, g, ha, txThread, ps₁, ps₂, Session.new, State.setSession]
  have hsend : Proxy.step cfg remote (single g ps₂ buf que) (.tx 0 true) =
      some (single g ps₃ buf que) := by
    simp [Proxy.step, State.dead, single, g, ha, txThread, ps₁, ps₂, ps₃, Session.new,
      State.setSession, hfits]
  refine ⟨single g ps₃ buf que, ps₃, ?_, rfl, rfl⟩
  simp only [List.replicate]
  rw [run_step hhand, run_step hpop, run_step hsend]
  rfl

/-- One client reads one byte. -/
def readByte (x : Nat) : List (Act disksize) :=
  (Act.register :: .rx 0 (.message (byteHeader x) none) :: List.replicate 3 (Act.rx 0 .broken)) ++
    ((List.replicate 5 (Act.fwd (.tx true)) ++ List.replicate 2 (Act.fwd (.rx .reply))) ++
      (Act.fwd (.rx .reply) :: List.replicate 2 (Act.tx 0 true)))

theorem readByte_orderly (s : State disksize) :
    Along (Proxy.step cfg remote) Linear.Orderly s (readByte x) := by
  simp [readByte, List.replicate, Along, Linear.Orderly, Pipeline.Orderly]

/-- The byte of a marked block comes from the cache file. -/
theorem readByte_cached (cache : File)
    (hx : x < disksize) (hbelow : x + 1 + cblocksize ≤ offMax + 1)
    (hlen : bm.length = bitsToLongs (getDiskNblocks disksize))
    (hmarked : bitmapTest bm (x / cblocksize) = true) :
    ∃ t ps p, run (Proxy.step cfg remote) (start bm cache) (readByte x) = some t ∧
      t.sessions[0]? = some ps ∧ p ∈ ps.replied ∧ p.call.request.iotype = .read ∧
      p.call.request.start = x ∧ p.call.request.iolen = 1 ∧ p.seqnum = 0 ∧
      p.readBuff = slice cache x 1 := by
  have hd := cfg.size_max
  obtain ⟨c, hrecv, hk, hio, hfrom, hone⟩ := recvRequest_byte cfg hx
  have hstart : c.request.start = x := by
    rw [Request.start, hfrom]
    rfl
  have h0 : 0 ≤ c.request.iofrom := by
    rw [hfrom]
    exact Int.natCast_nonneg x
  have hsta : c.request.blockIndexStart = x / cblocksize := by
    simp only [offMax] at hd
    rw [blockIndexStart_eq h0, hstart, getBindexSta_natCast (by omega)]
  have hend : c.request.blockIndexEnd = c.request.blockIndexStart := by
    rw [hsta, blockIndexEnd_eq hd h0, hstart, hone]
    simp only [offMax] at hd
    rw [getBindexEnd_natCast (by omega) (by omega), Nat.add_sub_cancel]
  have hlt := block_lt_nblocks hx
  have hw := @nblocks_le_words disksize
  have hmax := words_lt hd
  have hmap : (mmapBlockRegionCreate cfg.pagesize disksize x 1).isSome :=
    (mmapBlockRegionCreate_isSome_iff cfg.pagesize hd hx).mpr hbelow
  obtain ⟨mbr, hmbr⟩ := Option.isSome_iff_exists.mp hmap
  have hin : Inside bm c.request.blockIndexStart := by
    rw [hsta, lt_iff_index]
    omega
  obtain ⟨buf, que, hsubmit⟩ := single_submit cfg remote hrecv bm cache
  obtain ⟨f, p, hread, hrx, ha, hcall, hseq, hbuff⟩ := fwd_reads cfg remote cache hio hend hin
    (by rw [hsta]; exact hmarked) (by omega) (by rw [hfrom, hone]; exact hmbr) .new buf que
  have hfits : ReplyFits p := by
    intro _
    rw [hcall, hone]
    decide
  obtain ⟨t, ps, hanswer, hps, hreplied⟩ := single_answers cfg remote hrx ha
    (by rw [hcall]; exact hk) hfits buf que
  refine ⟨t, ps, p, run_join hsubmit (run_join hread hanswer), hps, by simp [hreplied], ?_, ?_, ?_,
    hseq, ?_⟩
  · rw [hcall, hio]
  · rw [hcall, hstart]
  · rw [hcall, hone]
  · rw [hbuff, hone, (mmapBlockRegionCreate_pointers hmbr).1]
    rfl

end ReadByte

section TwoRuns

variable {size₁ size₂ : Nat} {cfg₁ : Config size₁} {cfg₂ : Config size₂} {remote₁ remote₂ : File}
  {files : Files} {s : State size₁}

/-- A run that began with a new or cleared bitmap, in which parked requests came back in
order, and that ended cleanly with all its requests carried out. -/
structure CleanRun (cfg : Config size₁) (remote : File) (files : Files) (s : State size₁) :
    Prop where
  opened : ∃ old clear, (clear = true ∨ old.bitmap = []) ∧
    proxyInitialize old size₁ clear = some files
  reached : ∃ acts, Along (Proxy.step cfg remote) Linear.Orderly (start files.bitmap files.cache)
      acts ∧ run (Proxy.step cfg remote) (start files.bitmap files.cache) acts = some s
  closed : s.fwd.main = .closed
  completed : s.fwd.executed = s.fwd.entered

/-- The next run takes the files over and answers every READ from the remote disk with the
requests of both runs, or it is refused. -/
def ReadsBoth (files : Files) (executed : List (Call size₁)) (cfg : Config size₂)
    (remote : File) : Prop :=
  ∀ files', proxyInitialize files size₂ false = some files' → ∀ acts,
    Along (Proxy.step cfg remote) Linear.Orderly (start files'.bitmap files'.cache) acts →
      ∀ t, run (Proxy.step cfg remote) (start files'.bitmap files'.cache) acts = some t →
        ReadsFrom (refRun (uncached remote) executed) t

/-- The bitmap needs another number of words, the cache device is too small, the disk has
not grown, it ended with a whole block, or its last block is not marked. -/
def Reusable (size₁ size₂ : Nat) (files : Files) : Prop :=
  files.bitmap.length ≠ bitsToLongs (getDiskNblocks size₂) ∨
    files.regular = false ∧ files.cacheSize < size₂ ∨ size₂ ≤ size₁ ∨ size₁ % cblocksize = 0 ∨
    bitmapTest files.bitmap (size₁ / cblocksize) = false

theorem CleanRun.sound (h : CleanRun cfg₁ remote₁ files s) :
    Sound cfg₁ remote₁ (uncached remote₁) s ∧ Carried s.fwd ∧ size₁ ≤ files.cacheSize := by
  obtain ⟨old, clear, hnew, hinit⟩ := h.opened
  obtain ⟨acts, ho, hrun⟩ := h.reached
  obtain ⟨hzero, hsize⟩ := proxyInitialize_new cfg₁.size_pos hnew hinit
  have hI := run_carried (by rw [hzero, List.length_replicate]) ho hrun
  rw [hzero, refOf_cleared] at hI
  exact ⟨hI.1, hI.2, hsize⟩

theorem CleanRun.words (h : CleanRun cfg₁ remote₁ files s) : (files.after s).bitmap ≠ [] := by
  intro he
  have hw := h.sound.1.coherent.marking.words
  have hn := getDiskNblocks_pos cfg₁.size_pos
  simp only [Files.after] at he
  rw [he, List.length_nil, bitsToLongs] at hw
  omega

/-- With a bitmap that is good for the new disk, the new run shows the right disk. -/
theorem CleanRun.readsBoth (h : CleanRun cfg₁ remote₁ files s)
    (hagree : ∀ x, x < size₁ → x < size₂ → remote₂ x = remote₁ x)
    (hgood : Reusable size₁ size₂ (files.after s)) :
    ReadsBoth (files.after s) s.fwd.executed cfg₂ remote₂ := by
  intro files' hstart acts ho t hrun
  obtain ⟨hsound, hc, hsize⟩ := h.sound
  have hbits := ended_marked hsound h.closed h.completed remote₂
  cases proxyInitialize_kept cfg₂.size_pos h.words with
  | inl href =>
    rw [href.1] at hstart
    cases hstart
  | inr hkept =>
    obtain ⟨⟨hwords, hdevice⟩, files'', hstart', hbm, hcache⟩ := hkept
    rw [hstart'] at hstart
    cases hstart
    obtain ⟨hsound₂, hc₂⟩ := run_carried (by rw [hbm]; exact hwords) ho hrun
    have hmarks : bitmapTest files'.bitmap =
        (refRun (uncached remote₂) s.fwd.executed).marked := by
      rw [hbm]
      exact hbits
    refine readsFrom_of_sound hsound₂ hc₂ hmarks fun x hx => ?_
    rw [ended_bytes hsound hc hagree hx]
    simp only [refOf, hmarks]
    by_cases hm : (refRun (uncached remote₂) s.fwd.executed).marked (x / cblocksize) = true
    · have hlt : x < size₁ := by
        by_contra hge
        obtain ⟨hblock, hshort⟩ := marked_behind cfg₁.size_max hc hm (by omega)
        have hunmarked : bitmapTest s.fwd.cbitmap (size₁ / cblocksize) = false := by
          obtain hw | hdev | hle | hwhole | hbit := hgood
          · exact absurd hwords hw
          · exact absurd hdev hdevice
          · omega
          · exact absurd hwhole hshort
          · exact hbit
        rw [hbits, ← hblock, hm] at hunmarked
        cases hunmarked
      rw [if_pos hm, if_pos ⟨hlt, hm⟩]
      exact hcache x (Nat.lt_of_lt_of_le hlt hsize)
    · rw [if_neg hm, if_neg fun hand => hm hand.2]

/-- The first byte behind the old end, in a block that is marked, is taken from the cache
file. -/
theorem CleanRun.stale (h : CleanRun cfg₁ remote₁ files s) (cfg₂ : Config size₂) {files' : Files}
    (hstart : proxyInitialize (files.after s) size₂ false = some files') (hgrown : size₁ < size₂)
    (hbit : bitmapTest (files.after s).bitmap (size₁ / cblocksize) = true)
    (hne : files'.cache size₁ ≠ remote₂ size₁) :
    ¬ReadsBoth (files.after s) s.fwd.executed cfg₂ remote₂ := by
  intro hreads
  obtain ⟨hsound, hc, -⟩ := h.sound
  cases proxyInitialize_kept cfg₂.size_pos h.words with
  | inl href =>
    rw [href.1] at hstart
    cases hstart
  | inr hkept =>
    obtain ⟨⟨hlen, -⟩, files'', hstart', hbm, -⟩ := hkept
    rw [hstart'] at hstart
    cases hstart
    have hmarked := congrFun (ended_marked hsound h.closed h.completed remote₂) (size₁ / cblocksize)
    have hbelow := marked_below cfg₁.size_max hc (hmarked.symm.trans hbit)
    obtain ⟨t, ps, p, hrun, hps, hp, hio, hfrom, hone, hseq, hbuff⟩ := readByte_cached cfg₂ remote₂
      files'.cache hgrown hbelow (hbm ▸ hlen) (hbm ▸ hbit)
    have hread := hreads files' hstart' _ (readByte_orderly cfg₂ remote₂ _) t hrun 0 ps hps p hp hio
    have hbyte : (refRun (uncached remote₂) s.fwd.executed).bytes size₁ = remote₂ size₁ :=
      refRun_outside cfg₁.size_max (fun c hmem => (hc c hmem).inside) (Nat.le_refl size₁)
    rw [hbuff, hfrom, hone, hseq, List.take_zero, refRun_nil] at hread
    simp only [slice, List.range_one, List.map_cons, List.map_nil, Nat.add_zero, hbyte,
      List.cons.injEq, and_true] at hread
    exact hne hread

end TwoRuns

/-- After a clean run a kept bitmap is right for every remote disk that continues the old
one, exactly if it is refused or the disk has not grown out of a marked, short block. -/
theorem kept_bitmap_valid_iff {size₁ size₂ : Nat} (cfg₁ : Config size₁) (cfg₂ : Config size₂)
    (remote₁ : File) (files : Files) (s : State size₁) (h : CleanRun cfg₁ remote₁ files s) :
    (∀ remote₂, (∀ x, x < size₁ → x < size₂ → remote₂ x = remote₁ x) →
        ReadsBoth (files.after s) s.fwd.executed cfg₂ remote₂) ↔
      Reusable size₁ size₂ (files.after s) := by
  constructor
  · intro hall
    by_contra hbad
    simp only [Reusable, not_or] at hbad
    obtain ⟨hwords, hdevice, hgrown, -, hbit⟩ := hbad
    cases proxyInitialize_kept cfg₂.size_pos h.words with
    | inl href => exact absurd href.2 (not_or.mpr ⟨hwords, hdevice⟩)
    | inr hkept =>
      obtain ⟨-, files', hstart, -, -⟩ := hkept
      let remote₂ : File := fun x => if x < size₁ then remote₁ x else files'.cache x + 1
      have hne : files'.cache size₁ ≠ remote₂ size₁ := by
        have hremote : remote₂ size₁ = files'.cache size₁ + 1 := if_neg (Nat.lt_irrefl _)
        rw [hremote]
        simp
      exact h.stale cfg₂ hstart (Nat.lt_of_not_le hgrown) (Bool.eq_true_of_not_eq_false hbit) hne
        (hall remote₂ fun x hx _ => if_pos hx)
  · intro hgood remote₂ hagree
    exact h.readsBoth hagree hgood

section Example

/-- A new bitmap and an empty cache file for a disk of two bytes. -/
def firstFiles : Files := ⟨[0], fun _ => 0, 2, true⟩

/-- A run in which one byte was read. -/
theorem cleanRun_read : ∃ s, CleanRun twoBytes (fun _ => 7) firstFiles s ∧ s.fwd.cbitmap = [1] := by
  have ho : Along (Proxy.step twoBytes fun _ => 7) Linear.Orderly (start [0] fun _ => 0)
      Durability.readAndQuit := by decide
  have hmap : ((run (Proxy.step twoBytes fun _ => 7) (start [0] fun _ => 0)
      Durability.readAndQuit).map fun s => (s.fwd.main, decide (s.fwd.executed = s.fwd.entered),
        s.fwd.cbitmap)) = some (.closed, true, [1]) := by decide
  obtain ⟨s, hs, hproj⟩ := Option.map_eq_some_iff.mp hmap
  simp only [Prod.mk.injEq, decide_eq_true_eq] at hproj
  obtain ⟨hclosed, hdone, hbm⟩ := hproj
  exact ⟨s, ⟨⟨⟨[], fun _ => 0, 2, true⟩, false, .inr rfl, rfl⟩, ⟨_, ho, hs⟩, hclosed, hdone⟩, hbm⟩

theorem kept_bitmap_valid_iff_same :
    ∃ s, CleanRun twoBytes (fun _ => 7) firstFiles s ∧ Reusable 2 2 (firstFiles.after s) ∧
      ReadsBoth (firstFiles.after s) s.fwd.executed twoBytes (fun _ => 7) := by
  obtain ⟨s, hclean, -⟩ := cleanRun_read
  have hgood : Reusable 2 2 (firstFiles.after s) := .inr (.inr (.inl (Nat.le_refl 2)))
  exact ⟨s, hclean, hgood, (kept_bitmap_valid_iff twoBytes twoBytes (fun _ => 7) firstFiles s
    hclean).mpr hgood (fun _ => 7) fun _ _ _ => rfl⟩

theorem bytes_pos : 0 < 3 := by decide

theorem bytes_le_offMax : 3 ≤ offMax := by decide

/-- A disk of three bytes. -/
def threeBytes : Config 3 := ⟨4096, false, 0, 0, bytes_pos, bytes_le_offMax, page_pos, page_le⟩

/-- The remote disk is one byte longer in the second run. Its last byte is in the block that
the first run has marked, and the proxy shows the zero that `ftruncate` put there. -/
theorem kept_bitmap_stale :
    ∃ s, CleanRun twoBytes (fun _ => 7) firstFiles s ∧
      (∃ files', proxyInitialize (firstFiles.after s) 3 false = some files') ∧
      ¬ReadsBoth (firstFiles.after s) s.fwd.executed threeBytes (fun _ => 7) := by
  obtain ⟨s, hclean, hbm⟩ := cleanRun_read
  have hfiles : firstFiles.after s = ⟨[1], s.fwd.cache, 2, true⟩ := by
    simp only [Files.after, firstFiles, hbm]
  have hstart : proxyInitialize (firstFiles.after s) 3 false =
      some ⟨[1], fun x => if x < 2 then s.fwd.cache x else 0, 3, true⟩ := by
    rw [hfiles]
    rfl
  have hbit : bitmapTest (firstFiles.after s).bitmap (2 / cblocksize) = true := by
    have hone : bitmapTest [1] (2 / cblocksize) = true := by decide
    rw [hfiles]
    exact hone
  have hne : (0 : UInt8) ≠ 7 := by decide
  exact ⟨s, hclean, ⟨_, hstart⟩, hclean.stale threeBytes hstart (by decide) hbit hne⟩

end Example

end Xnbd.BitmapReuse
