import Xnbd.Fragments
import Xnbd.MaximalRuns

/-!
# What `prepare_read_priv` asks for

The loop tests and sets one bit of the bitmap after the other and collects the missing
blocks in the table of remote reads. The finished table is compared with the maximal runs
of the bits that were 0 before the loop.
-/
namespace Xnbd.ReadRuns

open Block Bitmap Nbd Requests CowRefine Forwarder Reference Coherence Loop Ranges Fragments
  MaximalRuns

section Model

/-- `prepare_read_priv` from `priv->block_index_start` to `priv->block_index_end`. -/
def prepareReadBlocks (cbitmap : Words) (blockIndexStart blockIndexEnd fuel : Nat) :
    Outcome (Words × List ReadReq) :=
  forLoop (fun s i => prepareReadBlock s.1 s.2 i) blockIndexEnd fuel blockIndexStart (cbitmap, [])

/-- The loop over the blocks of a request is one of these. -/
theorem prepareReadPriv_eq {disksize : Nat} (cbitmap : Words) (r : Request disksize) (fuel : Nat) :
    prepareReadPriv cbitmap r fuel =
      prepareReadBlocks cbitmap r.blockIndexStart r.blockIndexEnd fuel := rfl

/-- The maximal runs of blocks from `sta` to `last` whose bit is 0. -/
def missingRuns (cbitmap : Words) (sta last : Nat) : Set (Nat × Nat) :=
  maximalRuns (missing cbitmap) sta (last + 1)

/-- The table and the bitmap that the loop has to leave. -/
structure Prepared (cbitmap : Words) (sta last : Nat) (bm : Words) (req : List ReadReq) :
    Prop where
  runs : ∀ rr : ReadReq, rr ∈ req ↔
    (rr.bindexIofrom, rr.bindexIofrom + rr.bindexIolen) ∈ missingRuns cbitmap sta last
  ascending : req.Pairwise fun rr rr' => rr.bindexIofrom + rr.bindexIolen < rr'.bindexIofrom
  room : req.length < maxnblock
  size : bm.length = cbitmap.length
  marked : ∀ b, sta ≤ b → b ≤ last → bitmapTest bm b = true
  kept : ∀ b, ¬(sta ≤ b ∧ b ≤ last) → bitmapTest bm b = bitmapTest cbitmap b

end Model

section Scan

variable {cbitmap bm : Words} {sta last i : Nat} {req req' : List ReadReq}

/-- The loop before block `i`. -/
structure Scanned (cbitmap : Words) (sta i : Nat) (s : Words × List ReadReq) : Prop where
  first : sta ≤ i
  size : s.1.length = cbitmap.length
  bits : ∀ b, bitmapTest s.1 b = (bitmapTest cbitmap b || decide (sta ≤ b ∧ b < i))
  table : Table (missing cbitmap) sta i s.2
  room : s.2.length < maxnblock
  opening : ∀ rr ∈ s.2, starts (missing cbitmap) sta rr.bindexIofrom = true
  ascending : s.2.Pairwise fun rr rr' => rr.bindexIofrom < rr'.bindexIofrom

theorem scanned_start (cbitmap : Words) (sta : Nat) : Scanned cbitmap sta sta (cbitmap, []) where
  first := Nat.le_refl _
  size := rfl
  bits := fun b => by
    have hnone : ¬(sta ≤ b ∧ b < sta) := by omega
    simp [hnone]
  table := table_nil
  room := Nat.zero_lt_succ _
  opening := by simp
  ascending := .nil

/-- A missing block with no entry that ends before it begins a run. -/
theorem starts_of_not_open (h : Table (missing cbitmap) sta i req) (hi : sta ≤ i)
    (hmiss : missing cbitmap i = true)
    (hno : ∀ last, req.getLast? = some last → i ≠ last.bindexIofrom + last.bindexIolen) :
    starts (missing cbitmap) sta i = true := by
  have hclosed : ¬Open req i := by
    intro hopen
    obtain ⟨last, hlast, he⟩ := hopen
    exact hno last hlast he
  exact (h.start hi hmiss hclosed).1

/-- The entries still start at different places, one behind the other. -/
theorem addReadBlockToTail_order (h : Scanned cbitmap sta i (bm, req))
    (hmiss : missing cbitmap i = true) (hadd : addReadBlockToTail req i = some req') :
    (∀ rr ∈ req', starts (missing cbitmap) sta rr.bindexIofrom = true) ∧
      req'.Pairwise fun rr rr' => rr.bindexIofrom < rr'.bindexIofrom := by
  have hopening := h.opening
  have hascending := h.ascending
  obtain ⟨init, last, rfl, -, rfl⟩ | ⟨hno, -, rfl⟩ := addReadBlockToTail_cases hadd
  · -- the entry that grows keeps its start
    simp only [List.forall_mem_append, List.forall_mem_singleton, List.pairwise_append,
      List.pairwise_singleton] at hopening hascending ⊢
    exact ⟨hopening, hascending⟩
  · simp only [List.forall_mem_append, List.forall_mem_singleton, List.pairwise_append,
      List.pairwise_singleton]
    refine ⟨⟨hopening, starts_of_not_open h.table h.first hmiss hno⟩, hascending, trivial, ?_⟩
    intro rr hrr
    obtain ⟨-, hend, hpos, -⟩ := h.table.inside rr hrr
    omega

theorem Scanned.step (h : Scanned cbitmap sta i (bm, req)) (hin : Inside bm i) :
    (∃ s, prepareReadBlock bm req i = some s ∧ Scanned cbitmap sta (i + 1) s) ∨
      (prepareReadBlock bm req i = none ∧
        gaps (missing cbitmap) sta (i + 1 - sta) = maxnblock) := by
  have hbit : bitmapTest bm i = bitmapTest cbitmap i := by
    have hlater : ¬(sta ≤ i ∧ i < i) := by omega
    simpa [hlater] using h.bits i
  cases prepareReadBlock_table h.table h.first hin hbit h.room with
  | inl hstep =>
    obtain ⟨⟨bm', req'⟩, hs, htab, hroom⟩ := hstep
    obtain ⟨-, hsize, hbits, -⟩ := prepareReadBlock_spec hs
    have horder : (∀ rr ∈ req', starts (missing cbitmap) sta rr.bindexIofrom = true) ∧
        req'.Pairwise fun rr rr' => rr.bindexIofrom < rr'.bindexIofrom := by
      obtain ⟨-, ⟨-, he⟩ | ⟨ht, req'', hadd, he⟩⟩ := prepareReadBlock_cases hs
      · cases he
        exact ⟨h.opening, h.ascending⟩
      · cases he
        have hmiss : missing cbitmap i = true := by
          rw [missing, ← hbit, ht]
          rfl
        exact addReadBlockToTail_order h hmiss hadd
    left
    refine ⟨(bm', req'), hs, Nat.le_succ_of_le h.first, hsize.trans h.size, fun b => ?_, htab,
      hroom, horder.1, horder.2⟩
    have hfirst := h.first
    have hnext : (sta ≤ b ∧ b < i + 1) = ((sta ≤ b ∧ b < i) ∨ b = i) :=
      propext ⟨fun h => by omega, fun h => by omega⟩
    rw [hbits, h.bits, Bool.or_assoc, ← Bool.decide_or]
    simp only [hnext]
  | inr hfull => exact .inr hfull

end Scan

section Finished

variable {cbitmap bm : Words} {sta last : Nat} {req : List ReadReq} {rr rr' : ReadReq}

/-- Two entries with a common block are one. -/
theorem Scanned.eq_of_start {i : Nat} (h : Scanned cbitmap sta i (bm, req)) (hrr : rr ∈ req)
    (hrr' : rr' ∈ req) (hlo : rr'.bindexIofrom ≤ rr.bindexIofrom)
    (hhi : rr.bindexIofrom < rr'.bindexIofrom + rr'.bindexIolen) : rr' = rr := by
  have hstart : rr'.bindexIofrom = rr.bindexIofrom := by
    by_contra hne
    obtain ⟨hsta, -, -, hmiss⟩ := h.table.inside rr' hrr'
    cases (starts_iff.mp (h.opening rr hrr)).2 with
    | inl hfirst => omega
    | inr hfalse =>
      have htrue := hmiss (rr.bindexIofrom - 1) (by omega) (by omega)
      rw [hfalse] at htrue
      cases htrue
  have hnodup : (req.map ReadReq.bindexIofrom).Nodup :=
    (List.pairwise_map.mpr h.ascending).imp fun hlt => Nat.ne_of_lt hlt
  exact List.inj_on_of_nodup_map hnodup hrr' hrr hstart

/-- Every entry of the finished table is a maximal run. -/
theorem Scanned.entry_run (h : Scanned cbitmap sta (last + 1) (bm, req)) (hrr : rr ∈ req) :
    MaximalRun (missing cbitmap) sta (last + 1) rr.bindexIofrom
      (rr.bindexIofrom + rr.bindexIolen) := by
  obtain ⟨hsta, hend, hpos, hmiss⟩ := h.table.inside rr hrr
  obtain ⟨hstart, hleft⟩ := starts_iff.mp (h.opening rr hrr)
  obtain ⟨rr', hrr', hlo, hhi, hright⟩ := h.table.closed rr.bindexIofrom hsta (by omega) hstart
  have heq := h.eq_of_start hrr hrr' hlo hhi
  subst heq
  refine ⟨by omega, hsta, hend, hmiss, hleft, ?_⟩
  cases hright with
  | inl hlast => exact .inl hlast.2.symm
  | inr hfalse => exact .inr hfalse

/-- Every maximal run has its entry. -/
theorem Scanned.run_entry (h : Scanned cbitmap sta (last + 1) (bm, req))
    (hrun : MaximalRun (missing cbitmap) sta (last + 1) rr.bindexIofrom
      (rr.bindexIofrom + rr.bindexIolen)) : rr ∈ req := by
  have hlt := hrun.nonempty
  have hupper := hrun.upper
  obtain ⟨rr', hrr', hlo, hhi, -⟩ := h.table.closed rr.bindexIofrom hrun.lower (by omega)
    (hrun.holds _ (Nat.le_refl _) hlt)
  obtain ⟨hfrom, hto⟩ := (h.entry_run hrr').eq_of_mem hrun hlo hhi
  have heq : rr' = rr := by
    cases rr'
    cases rr
    simp only [ReadReq.mk.injEq] at hfrom hto ⊢
    omega
  exact heq ▸ hrr'

theorem Scanned.prepared (h : Scanned cbitmap sta (last + 1) (bm, req)) :
    Prepared cbitmap sta last bm req where
  runs := fun _ => ⟨fun hrr => h.entry_run hrr, fun hrun => h.run_entry hrun⟩
  ascending := h.ascending.imp_of_mem fun hrr hrr' hlt => (h.entry_run hrr).apart (h.entry_run hrr') hlt
  room := h.room
  size := h.size
  marked := fun b h0 h1 => by
    have hin : sta ≤ b ∧ b < last + 1 := by omega
    rw [h.bits b, decide_eq_true hin, Bool.or_true]
  kept := fun b hb => by
    have hout : ¬(sta ≤ b ∧ b < last + 1) := by omega
    rw [h.bits b, decide_eq_false hout, Bool.or_false]

theorem ncard_missingRuns (hord : sta ≤ last) :
    (missingRuns cbitmap sta last).ncard = gaps (missing cbitmap) sta (last + 1 - sta) := by
  have hstop : last + 1 = sta + (last + 1 - sta) := by omega
  rw [missingRuns, hstop, ncard_maximalRuns, ← hstop]
  rfl

end Finished

section Loops

variable {nblocks : Nat} {cbitmap : Words} {sta last : Nat}

/-- The loop tests and sets bits that the bitmap has. -/
theorem inside_blocks {bm : Words} {i : Nat} (hbm : cbitmap.length = bitsToLongs nblocks)
    (hlast : last < nblocks) (hsize : bm.length = cbitmap.length) (hi : i ≤ last) :
    Inside bm i := by
  rw [lt_iff_index, hsize, hbm, bitsToLongs]
  omega

theorem scanned_next (hbm : cbitmap.length = bitsToLongs nblocks) (hlast : last < nblocks) (i : Nat)
    (s s' : Words × List ReadReq) (_ : sta ≤ i) (hi : i ≤ last) (h : Scanned cbitmap sta i s)
    (hs : prepareReadBlock s.1 s.2 i = some s') : Scanned cbitmap sta (i + 1) s' := by
  cases h.step (inside_blocks hbm hlast h.size hi) with
  | inl hstep =>
    obtain ⟨t, ht, hnext⟩ := hstep
    rw [ht] at hs
    cases hs
    exact hnext
  | inr hfull =>
    rw [hfull.1] at hs
    cases hs

theorem prepareReadBlocks_left {fuel : Nat} {s : Words × List ReadReq} (hn : nblocks < 2 ^ 64)
    (hbm : cbitmap.length = bitsToLongs nblocks) (hord : sta ≤ last) (hlast : last < nblocks)
    (hs : prepareReadBlocks cbitmap sta last fuel = .left s) : Scanned cbitmap sta (last + 1) s :=
  forLoop_invariant (fun s i => prepareReadBlock s.1 s.2 i) (Scanned cbitmap sta) (by omega)
    (by omega) (scanned_start cbitmap sta) (scanned_next hbm hlast) hs

/-- The table is big enough for 31 runs. -/
theorem prepareReadBlocks_returns (hn : nblocks < 2 ^ 64)
    (hbm : cbitmap.length = bitsToLongs nblocks) (hord : sta ≤ last) (hlast : last < nblocks)
    (hfew : gaps (missing cbitmap) sta (last + 1 - sta) ≤ 31) :
    ∃ s, prepareReadBlocks cbitmap sta last (last + 2) = .left s := by
  have hloop := forLoop_within (fun s i => prepareReadBlock s.1 s.2 i) (Scanned cbitmap sta)
    (by omega) (by omega) (Nat.le_add_right (last + 2) sta) (scanned_start cbitmap sta)
    (scanned_next hbm hlast)
  rw [prepareReadBlocks]
  cases hout : forLoop (fun s i => prepareReadBlock s.1 s.2 i) last (last + 2) sta
      (cbitmap, []) with
  | left s => exact ⟨s, rfl⟩
  | running =>
    rw [hout] at hloop
    exact hloop.elim
  | stopped i =>
    -- the loop is stopped only by a full table
    rw [hout] at hloop
    obtain ⟨-, hi, s, h, hnone⟩ := hloop
    cases h.step (inside_blocks hbm hlast h.size hi) with
    | inl hstep =>
      obtain ⟨t, ht, -⟩ := hstep
      have hsome : prepareReadBlock s.1 s.2 i = none := hnone
      rw [ht] at hsome
      cases hsome
    | inr hfull =>
      have hmono := @gaps_mono (missing cbitmap) sta (i + 1 - sta) (last + 1 - sta) (by omega)
      have hmax := hfull.2
      simp only [maxnblock] at hmax
      omega

/-- The remote reads of a READ or CACHE. -/
theorem prepareReadPriv_prepared {disksize fuel : Nat} {r : Request disksize} {bm : Words}
    {req : List ReadReq} (hd : disksize ≤ offMax) (h0 : 0 ≤ r.iofrom) (hlen : 1 ≤ r.iolen)
    (hbm : Sized disksize cbitmap) (hs : prepareReadPriv cbitmap r fuel = .left (bm, req)) :
    Prepared cbitmap r.blockIndexStart r.blockIndexEnd bm req := by
  obtain ⟨hord, hend⟩ := blockIndexEnd_lt hd h0 hlen
  have hn : getDiskNblocks disksize < 2 ^ 64 := by
    have hwords := @nblocks_le_words disksize
    have hlt := words_lt hd
    omega
  rw [prepareReadPriv_eq] at hs
  exact (prepareReadBlocks_left hn hbm hord hend hs).prepared

end Loops

theorem remote_reads_exact (nblocks : Nat) (hn : nblocks < 2 ^ 64) (cbitmap : Words)
    (hbm : cbitmap.length = bitsToLongs nblocks) (sta last : Nat) (hord : sta ≤ last)
    (hlast : last < nblocks) :
    (∀ fuel bm req, prepareReadBlocks cbitmap sta last fuel = .left (bm, req) →
      Prepared cbitmap sta last bm req) ∧
    ((∃ fuel s, prepareReadBlocks cbitmap sta last fuel = .left s) ↔
      (missingRuns cbitmap sta last).ncard ≤ 31) := by
  constructor
  · intro fuel bm req hs
    exact (prepareReadBlocks_left hn hbm hord hlast hs).prepared
  rw [ncard_missingRuns hord]
  constructor
  · intro hreturns
    obtain ⟨fuel, s, hs⟩ := hreturns
    have h := prepareReadBlocks_left hn hbm hord hlast hs
    have hcount := h.table.count
    have hroom := h.room
    simp only [maxnblock] at hroom
    omega
  · intro hfew
    exact ⟨last + 2, prepareReadBlocks_returns hn hbm hord hlast hfew⟩

/-- Of 65 blocks those from 3 to 61 and block 63 are cached: the blocks from 1 to 64 have
three missing runs, the last one in the second word. -/
theorem remote_reads_exact_words :
    ∃ bm req, prepareReadBlocks [0xBFFFFFFFFFFFFFF8#64, 0#64] 1 64 70 = .left (bm, req) ∧
      req = [⟨1, 2⟩, ⟨62, 1⟩, ⟨64, 1⟩] ∧
      Prepared [0xBFFFFFFFFFFFFFF8#64, 0#64] 1 64 bm req := by
  refine ⟨_, _, rfl, rfl, ?_⟩
  exact (remote_reads_exact 65 (by decide) [0xBFFFFFFFFFFFFFF8#64, 0#64] rfl 1 64 (by decide)
    (by decide)).1 70 _ _ rfl

end Xnbd.ReadRuns
