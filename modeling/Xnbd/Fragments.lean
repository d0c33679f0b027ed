import Xnbd.Coherence
import Xnbd.Ranges
import Xnbd.Run

/-!
# The table of remote reads

`add_read_block_to_tail` keeps one entry for every maximal run of blocks that
are not cached, in a table of fixed size, and each entry becomes one READ with
a 32-bit length. What `forwarder_tx` does with a request is followed from the
moment it has popped it until it passes it on.
-/
namespace Xnbd.Fragments

open CInt Block Bitmap Bytes Nbd Requests Forwarder Reference Coherence Loop Ranges Run CowRefine

variable {disksize : Nat}

section Runs

variable {missing : Nat → Bool} {sta i : Nat} {req req' : List ReadReq}

/-- A run of missing blocks starts here. -/
def opens (missing : Nat → Bool) (sta b : Nat) : Bool :=
  missing b && (decide (b = sta) || !missing (b - 1))

/-- The number of maximal runs of missing blocks in `[sta, sta + n)`. -/
def gaps (missing : Nat → Bool) (sta n : Nat) : Nat :=
  (List.range' sta n).countP (opens missing sta)

theorem gaps_succ (missing : Nat → Bool) (sta n : Nat) :
    gaps missing sta (n + 1) =
      gaps missing sta n + if opens missing sta (sta + n) then 1 else 0 := by
  simp only [gaps, List.range'_concat, List.countP_append, List.countP_singleton, Nat.one_mul]

theorem gaps_mono {m n : Nat} (h : m ≤ n) : gaps missing sta m ≤ gaps missing sta n := by
  induction n with
  | zero =>
    have hm : m = 0 := by omega
    rw [hm]
  | succ n ih =>
    by_cases he : m = n + 1
    · rw [he]
    · have := ih (by omega)
      rw [gaps_succ]
      omega

/-- The last entry of the table ends right before block `i`. -/
def Open (req : List ReadReq) (i : Nat) : Prop :=
  ∃ last, req.getLast? = some last ∧ i = last.bindexIofrom + last.bindexIolen

/-- The table after the blocks `[sta, i)`: its entries are the maximal runs of
missing blocks among them. -/
structure Table (missing : Nat → Bool) (sta i : Nat) (req : List ReadReq) : Prop where
  count : req.length = gaps missing sta (i - sta)
  ending : Open req i ↔ sta < i ∧ missing (i - 1) = true
  inside : ∀ rr ∈ req, sta ≤ rr.bindexIofrom ∧ rr.bindexIofrom + rr.bindexIolen ≤ i ∧
    0 < rr.bindexIolen ∧
    ∀ b, rr.bindexIofrom ≤ b → b < rr.bindexIofrom + rr.bindexIolen → missing b = true
  closed : ∀ b, sta ≤ b → b < i → missing b = true → ∃ rr ∈ req, rr.bindexIofrom ≤ b ∧
    b < rr.bindexIofrom + rr.bindexIolen ∧
    (req.getLast? = some rr ∧ i = rr.bindexIofrom + rr.bindexIolen ∨
      missing (rr.bindexIofrom + rr.bindexIolen) = false)

theorem table_nil : Table missing sta sta [] where
  count := by simp [gaps]
  ending := by simp [Open]
  inside := by simp
  closed := fun b h0 h1 => by omega

/-- A block that is cached adds nothing. -/
theorem Table.skip (h : Table missing sta i req) (hi : sta ≤ i) (hm : missing i = false) :
    Table missing sta (i + 1) req := by
  have hone : i + 1 - sta = (i - sta) + 1 := by omega
  have hat : sta + (i - sta) = i := by omega
  constructor
  · rw [hone, gaps_succ, hat]
    simp [h.count, opens, hm]
  · constructor
    · intro hopen
      obtain ⟨last, hlast, he⟩ := hopen
      have := (h.inside last (List.mem_of_getLast? hlast)).2.1
      omega
    · intro hmiss
      rw [Nat.add_sub_cancel, hm] at hmiss
      cases hmiss.2
  · intro rr hrr
    obtain ⟨h0, h1, h2⟩ := h.inside rr hrr
    exact ⟨h0, by omega, h2⟩
  · intro b h0 h1 hb
    have hbi : b ≠ i := by
      intro he
      rw [he, hm] at hb
      cases hb
    obtain ⟨rr, hrr, hlo, hhi, hend⟩ := h.closed b h0 (by omega) hb
    cases hend with
    | inl hlast => exact ⟨rr, hrr, hlo, hhi, .inr (hlast.2 ▸ hm)⟩
    | inr hfalse => exact ⟨rr, hrr, hlo, hhi, .inr hfalse⟩

/-- A missing block behind the last run extends it. -/
theorem Table.extend {init : List ReadReq} {last : ReadReq}
    (h : Table missing sta i (init ++ [last])) (hi : sta ≤ i) (hm : missing i = true)
    (he : i = last.bindexIofrom + last.bindexIolen) :
    Table missing sta (i + 1) (init ++ [⟨last.bindexIofrom, last.bindexIolen + 1⟩]) := by
  have hone : i + 1 - sta = (i - sta) + 1 := by omega
  have hat : sta + (i - sta) = i := by omega
  have hbefore := h.ending.mp ⟨last, by simp, he⟩
  have hlast := h.inside last (by simp)
  constructor
  · have hne : i ≠ sta := by omega
    rw [hone, gaps_succ, hat]
    simpa [opens, hm, hbefore.2, hne] using h.count
  · have hopen : Open (init ++ [⟨last.bindexIofrom, last.bindexIolen + 1⟩]) (i + 1) :=
      ⟨⟨last.bindexIofrom, last.bindexIolen + 1⟩, by simp, by simp only; omega⟩
    exact ⟨fun _ => ⟨by omega, by simpa using hm⟩, fun _ => hopen⟩
  · intro rr hrr
    cases List.mem_append.mp hrr with
    | inl hin =>
      obtain ⟨h0, h1, h2⟩ := h.inside rr (List.mem_append_left _ hin)
      exact ⟨h0, by omega, h2⟩
    | inr hnew =>
      rw [List.mem_singleton.mp hnew]
      refine ⟨hlast.1, by simp only; omega, Nat.succ_pos _, fun b h0 h1 => ?_⟩
      by_cases hb : b = i
      · rw [hb]
        exact hm
      · exact hlast.2.2.2 b h0 (by simp only at h1; omega)
  · have hnew : ∀ b, last.bindexIofrom ≤ b → b < i + 1 → ∃ rr ∈ init ++
        [(⟨last.bindexIofrom, last.bindexIolen + 1⟩ : ReadReq)], rr.bindexIofrom ≤ b ∧
        b < rr.bindexIofrom + rr.bindexIolen ∧
        ((init ++ [(⟨last.bindexIofrom, last.bindexIolen + 1⟩ : ReadReq)]).getLast? = some rr ∧
            i + 1 = rr.bindexIofrom + rr.bindexIolen ∨
          missing (rr.bindexIofrom + rr.bindexIolen) = false) := by
      intro b h0 h1
      refine ⟨_, List.mem_append_right _ (List.mem_singleton_self _), h0, ?_, .inl ⟨by simp, ?_⟩⟩
      · simp only
        omega
      · simp only
        omega
    intro b h0 h1 hb
    by_cases hbi : b = i
    · exact hnew b (by omega) h1
    · obtain ⟨rr, hrr, hlo, hhi, hend⟩ := h.closed b h0 (by omega) hb
      cases List.mem_append.mp hrr with
      | inl hin =>
        cases hend with
        | inl hl =>
          have he' : rr = last := by simpa using hl.1.symm
          exact hnew b (he' ▸ hlo) h1
        | inr hfalse => exact ⟨rr, List.mem_append_left _ hin, hlo, hhi, .inr hfalse⟩
      | inr hl =>
        have he' : rr = last := List.mem_singleton.mp hl
        exact hnew b (he' ▸ hlo) h1

/-- A missing block behind a cached one starts a run. -/
theorem Table.start (h : Table missing sta i req) (hi : sta ≤ i) (hm : missing i = true)
    (hno : ¬Open req i) : opens missing sta i = true ∧
      Table missing sta (i + 1) (req ++ [⟨i, 1⟩]) := by
  have hone : i + 1 - sta = (i - sta) + 1 := by omega
  have hat : sta + (i - sta) = i := by omega
  have hopens : opens missing sta i = true := by
    by_cases he : i = sta
    · simp [opens, ← he, hm]
    · have hprev : ¬missing (i - 1) = true := fun hp => hno (h.ending.mpr ⟨by omega, hp⟩)
      simp [opens, hm, hprev]
  refine ⟨hopens, ?_, ?_, ?_, ?_⟩
  · rw [hone, gaps_succ, hat, hopens]
    simp [h.count]
  · exact ⟨fun _ => ⟨by omega, by simpa using hm⟩, fun _ => ⟨⟨i, 1⟩, by simp, rfl⟩⟩
  · intro rr hrr
    cases List.mem_append.mp hrr with
    | inl hin =>
      obtain ⟨h0, h1, h2⟩ := h.inside rr hin
      exact ⟨h0, by omega, h2⟩
    | inr hnew =>
      rw [List.mem_singleton.mp hnew]
      refine ⟨hi, Nat.le_refl _, Nat.one_pos, fun b h0 h1 => ?_⟩
      have hb : b = i := by
        simp only at h0 h1
        omega
      rw [hb]
      exact hm
  · intro b h0 h1 hb
    by_cases hbi : b = i
    · refine ⟨⟨i, 1⟩, by simp, by simp only; omega, by simp only; omega, .inl ⟨by simp, rfl⟩⟩
    · obtain ⟨rr, hrr, hlo, hhi, hend⟩ := h.closed b h0 (by omega) hb
      cases hend with
      | inl hl => exact absurd ⟨rr, hl⟩ hno
      | inr hfalse => exact ⟨rr, List.mem_append_left _ hrr, hlo, hhi, .inr hfalse⟩

/-- What `add_read_block_to_tail` does with a missing block. -/
theorem addReadBlockToTail_table (h : Table missing sta i req) (hi : sta ≤ i)
    (hm : missing i = true) (hroom : req.length < maxnblock) :
    (∃ req', addReadBlockToTail req i = some req' ∧ Table missing sta (i + 1) req' ∧
        req'.length < maxnblock) ∨
      (addReadBlockToTail req i = none ∧ gaps missing sta (i + 1 - sta) = maxnblock) := by
  have hone : i + 1 - sta = (i - sta) + 1 := by omega
  have hat : sta + (i - sta) = i := by omega
  by_cases hopen : Open req i
  · left
    obtain ⟨last, hlast, he⟩ := hopen
    obtain ⟨init, rfl⟩ := List.getLast?_eq_some_iff.mp hlast
    refine ⟨_, ?_, h.extend hi hm he, by simpa using hroom⟩
    simp [addReadBlockToTail, he]
  · obtain ⟨hopens, htab⟩ := h.start hi hm hopen
    have hadd : addReadBlockToTail req i =
        if req.length + 1 = maxnblock then none else some (req ++ [⟨i, 1⟩]) := by
      cases hl : req.getLast? with
      | none => simp only [addReadBlockToTail, hl]
      | some last =>
        have hne : i ≠ last.bindexIofrom + last.bindexIolen := fun he => hopen ⟨last, hl, he⟩
        simp only [addReadBlockToTail, hl, hne, if_false]
    by_cases hfull : req.length + 1 = maxnblock
    · right
      refine ⟨by rw [hadd, if_pos hfull], ?_⟩
      rw [hone, gaps_succ, hat, hopens, if_pos rfl, ← h.count, hfull]
    · left
      refine ⟨_, by rw [hadd, if_neg hfull], htab, ?_⟩
      rw [List.length_append, List.length_singleton]
      omega

end Runs

section Loop

variable {r : Request disksize} {bm₀ bm bm' : Words} {i : Nat} {req req' : List ReadReq}

/-- The blocks that the bitmap does not have. -/
def missing (cbitmap : Words) (b : Nat) : Bool := !bitmapTest cbitmap b

/-- The loop of `prepare_read_priv` before block `i`: the bits behind it are
still those the loop found. -/
structure ReadInv (bm₀ : Words) (r : Request disksize) (i : Nat) (s : Words × List ReadReq) :
    Prop where
  sized : Sized disksize s.1
  first : r.blockIndexStart ≤ i
  ahead : ∀ b, i ≤ b → bitmapTest s.1 b = bitmapTest bm₀ b
  table : Table (missing bm₀) r.blockIndexStart i s.2
  room : s.2.length < maxnblock

theorem readInv_start (r : Request disksize) (hbm : Sized disksize bm) :
    ReadInv bm r r.blockIndexStart (bm, []) :=
  ⟨hbm, Nat.le_refl _, fun _ _ => rfl, table_nil, Nat.zero_lt_succ _⟩

/-- One block: the table has the runs up to it, or it is full. -/
theorem prepareReadBlock_table {sta : Nat} (h : Table (missing bm₀) sta i req) (hi : sta ≤ i)
    (hin : Inside bm i) (hbit : bitmapTest bm i = bitmapTest bm₀ i)
    (hroom : req.length < maxnblock) :
    (∃ s, prepareReadBlock bm req i = some s ∧ Table (missing bm₀) sta (i + 1) s.2 ∧
        s.2.length < maxnblock) ∨
      (prepareReadBlock bm req i = none ∧ gaps (missing bm₀) sta (i + 1 - sta) = maxnblock) := by
  cases ht : bitmapTest bm i with
  | true =>
    have hmiss : missing bm₀ i = false := by
      simp only [missing, ← hbit, ht, Bool.not_true]
    left
    exact ⟨(bm, req), by simp only [prepareReadBlock, hin, ht, if_true], h.skip hi hmiss, hroom⟩
  | false =>
    have hmiss : missing bm₀ i = true := by
      simp only [missing, ← hbit, ht, Bool.not_false]
    cases addReadBlockToTail_table h hi hmiss hroom with
    | inl hadd =>
      obtain ⟨req', hreq, htab, hroom'⟩ := hadd
      left
      exact ⟨(bitmapOn bm i, req'), by simp [prepareReadBlock, hin, ht, hreq], htab, hroom'⟩
    | inr hfull =>
      right
      exact ⟨by simp [prepareReadBlock, hin, ht, hfull.1], hfull.2⟩

/-- One block: the invariant moves on, or the table is full. -/
theorem ReadInv.step (h : ReadInv bm₀ r i (bm, req)) (hi : i < getDiskNblocks disksize) :
    (∃ s, prepareReadBlock bm req i = some s ∧ ReadInv bm₀ r (i + 1) s) ∨
      (prepareReadBlock bm req i = none ∧
        gaps (missing bm₀) r.blockIndexStart (i + 1 - r.blockIndexStart) = maxnblock) := by
  have hin : Inside bm i := inside_of_lt h.sized hi
  cases prepareReadBlock_table h.table h.first hin (h.ahead i (Nat.le_refl _)) h.room with
  | inl hstep =>
    obtain ⟨s, hs, htab, hroom⟩ := hstep
    obtain ⟨-, hlength, hbits, -⟩ := prepareReadBlock_spec hs
    left
    refine ⟨s, hs, hlength.trans h.sized, Nat.le_succ_of_le h.first, ?_, htab, hroom⟩
    intro b hb
    have hne : b ≠ i := by omega
    rw [hbits, h.ahead b (by omega)]
    simp [hne]
  | inr hfull => exact .inr hfull

end Loop

section Sending

variable {r : Request disksize} {bm : Words} {req : List ReadReq} {rr : ReadReq}

/-- An entry is refused exactly if 2^32 bytes of the disk lie behind its start
and in its blocks. -/
theorem sendable_iff (hd : disksize ≤ offMax) (hrr : rr.bindexIofrom < getDiskNblocks disksize) :
    Sendable (remoteRange disksize rr) ↔
      ¬(2 ^ 20 ≤ rr.bindexIolen ∧ (rr.bindexIofrom + 2 ^ 20) * cblocksize ≤ disksize) := by
  have hlt := block_start_lt hrr
  rw [remoteRange_eq hd (by omega)]
  simp only [offMax] at hd
  simp only [Sendable, cblocksize, offMax] at hlt ⊢
  omega

/-- The condition on the bitmap: few enough runs of missing blocks, and none
with 2^20 whole blocks. -/
structure Fits (cbitmap : Words) (r : Request disksize) : Prop where
  few : gaps (missing cbitmap) r.blockIndexStart (r.blockIndexEnd + 1 - r.blockIndexStart) <
    maxnblock
  short : ∀ b, r.blockIndexStart ≤ b → b + 2 ^ 20 ≤ r.blockIndexEnd + 1 →
    (∀ c, b ≤ c → c < b + 2 ^ 20 → missing cbitmap c = true) →
      disksize < (b + 2 ^ 20) * cblocksize

/-- Sending the finished table fails exactly for a long run. -/
theorem table_sendable (hd : disksize ≤ offMax) (hend : r.blockIndexEnd < getDiskNblocks disksize)
    (ht : Table (missing bm) r.blockIndexStart (r.blockIndexEnd + 1) req) :
    (∀ rr ∈ req, Sendable (remoteRange disksize rr)) ↔
      ∀ b, r.blockIndexStart ≤ b → b + 2 ^ 20 ≤ r.blockIndexEnd + 1 →
        (∀ c, b ≤ c → c < b + 2 ^ 20 → missing bm c = true) →
          disksize < (b + 2 ^ 20) * cblocksize := by
  constructor
  · intro hsend b h0 h1 hmiss
    obtain ⟨rr, hrr, hlo, hhi, hclosed⟩ := ht.closed b h0 (by omega)
      (hmiss b (Nat.le_refl _) (by omega))
    have hlong : b + 2 ^ 20 ≤ rr.bindexIofrom + rr.bindexIolen := by
      by_contra hshort
      cases hclosed with
      | inl hl => omega
      | inr hfalse =>
        have htrue := hmiss (rr.bindexIofrom + rr.bindexIolen) (by omega) (by omega)
        rw [hfalse] at htrue
        cases htrue
    have hok := hsend rr hrr
    rw [sendable_iff hd (by omega)] at hok
    simp only [cblocksize] at hok ⊢
    omega
  · intro hshort rr hrr
    obtain ⟨h0, h1, hpos, hmiss⟩ := ht.inside rr hrr
    rw [sendable_iff hd (by omega)]
    by_cases hlen : 2 ^ 20 ≤ rr.bindexIolen
    · have hlt := hshort rr.bindexIofrom h0 (by omega) (fun c hc0 hc1 => hmiss c hc0 (by omega))
      omega
    · omega

end Sending

section Thread

variable {cfg : Config disksize} {remote : File} {f g : Fwd disksize} {p : Priv disksize}
  {c : Call disksize} {bm₀ : Words} {i : Nat} {sent : Bool}

/-- `forwarder_tx` on the request it holds, until it waits for the next one. -/
def handle (cfg : Config disksize) (remote : File) (f : Fwd disksize) (sent : Bool) :
    Option (Fwd disksize) :=
  match f.tx with
  | .idle => none
  | _ => Forwarder.step cfg remote f (.tx sent)

/-- The thread does not abort the proxy over the request, whatever becomes of
the connection to the remote server, and it can pass the request on. -/
structure Handles (cfg : Config disksize) (remote : File) (f : Fwd disksize)
    (c : Call disksize) : Prop where
  survives : ∀ sents g, run (handle cfg remote) f sents = some g → g.aborted = false
  passes : ∃ sents g p, run (handle cfg remote) f sents = some g ∧ g.tx = .idle ∧
    g.fwdRxQueue = f.fwdRxQueue ++ [.req p] ∧ p.call = c

/-- The request is in the thread's hands and nothing has gone wrong so far. -/
def Serving (bm₀ : Words) (c : Call disksize) (f : Fwd disksize) : Prop :=
  f.aborted = false ∧
    match f.tx with
    | .idle => True
    | .got e => e = .req (.fresh c) ∧ f.cbitmap = bm₀
    | .readLoop p i => p.call = c ∧ c.request.iotype ≠ .write ∧
        i ≤ c.request.blockIndexEnd + 1 ∧ ReadInv bm₀ c.request i (f.cbitmap, p.req)
    | .writeLoop p _ _ i => p.call = c ∧ i ≤ c.request.blockIndexEnd + 1 ∧
        Sized disksize f.cbitmap ∧ p.req = []
    | .send p _ => ∀ rr ∈ p.req, Sendable (remoteRange disksize rr)
    | .exited => False

theorem handle_eq (htx : ¬f.tx = .idle) (ha : f.aborted = false) :
    handle cfg remote f sent = f.txStep sent := by
  cases hp : f.tx with
  | idle => exact absurd hp htx
  | _ => simp [handle, hp, Forwarder.step, ha]

theorem handle_got (htx : f.tx = .got (.req p)) (ha : f.aborted = false) :
    handle cfg remote f sent = some (f.txGot (.req p)) := by
  rw [handle_eq (by simp [htx]) ha]
  simp [Fwd.txStep, htx]

theorem handle_readLoop (htx : f.tx = .readLoop p i) (ha : f.aborted = false) :
    handle cfg remote f sent = some (f.txReadLoop p i) := by
  rw [handle_eq (by simp [htx]) ha]
  simp [Fwd.txStep, htx]

theorem handle_writeLoop {getStart getEnd : Bool} (htx : f.tx = .writeLoop p getStart getEnd i)
    (ha : f.aborted = false) :
    handle cfg remote f sent = some (f.txWriteLoop p getStart getEnd i) := by
  rw [handle_eq (by simp [htx]) ha]
  simp [Fwd.txStep, htx]

theorem handle_send (htx : f.tx = .send p i) (ha : f.aborted = false) :
    handle cfg remote f sent = some (f.txSend p i sent) := by
  rw [handle_eq (by simp [htx]) ha]
  simp [Fwd.txStep, htx]

theorem mem_edgeReqs {r : Request disksize} {getStart getEnd : Bool} {rr : ReadReq} :
    rr ∈ edgeReqs r getStart getEnd ↔
      getStart = true ∧ rr = ⟨r.blockIndexStart, 1⟩ ∨
        getEnd = true ∧ rr = ⟨r.blockIndexEnd, 1⟩ := by
  cases getStart <;> cases getEnd <;> simp [edgeReqs]

/-- The remote reads of a WRITE are single blocks of the disk. -/
theorem edgeReqs_sendable (hd : disksize ≤ offMax) {r : Request disksize}
    (hsta : r.blockIndexStart ≤ r.blockIndexEnd) (hend : r.blockIndexEnd < getDiskNblocks disksize)
    (getStart getEnd : Bool) :
    (edgeReqs r getStart getEnd).length ≤ maxnblock ∧
      ∀ rr ∈ edgeReqs r getStart getEnd, Sendable (remoteRange disksize rr) := by
  have hone : ∀ b, b ≤ r.blockIndexEnd → Sendable (remoteRange disksize ⟨b, 1⟩) := by
    intro b hb
    rw [sendable_iff hd (by simp only; omega)]
    simp
  constructor
  · cases getStart <;> cases getEnd <;> simp [edgeReqs, maxnblock]
  · intro rr hrr
    cases mem_edgeReqs.mp hrr with
    | inl h =>
      rw [h.2]
      exact hone _ hsta
    | inr h =>
      rw [h.2]
      exact hone _ (Nat.le_refl _)

theorem serving_step (hd : disksize ≤ offMax)
    (hsta : c.request.blockIndexStart ≤ c.request.blockIndexEnd)
    (hend : c.request.blockIndexEnd < getDiskNblocks disksize) (hbm : Sized disksize bm₀)
    (hedges : EdgesInside bm₀ c.request)
    (hio : c.request.iotype = .read ∨ c.request.iotype = .cache ∨ c.request.iotype = .write)
    (hfit : c.request.iotype = .write ∨ Fits bm₀ c.request) (h : Serving bm₀ c f)
    (hs : handle cfg remote f sent = some g) : Serving bm₀ c g := by
  obtain ⟨ha, h⟩ := h
  have hlt : c.request.blockIndexEnd + 1 < 2 ^ 64 := by
    have hw := @nblocks_le_words disksize
    have := words_lt hd
    omega
  cases htx : f.tx with
  | idle => simp [handle, htx] at hs
  | exited =>
    rw [htx] at h
    exact h.elim
  | got e =>
    rw [htx] at h
    obtain ⟨rfl, rfl⟩ := h
    rw [handle_got htx ha] at hs
    cases hs
    have hprep : f.txGot (.req (.fresh c)) = f.startPrepare (.fresh c) := rfl
    have hcall : (Priv.fresh c).call = c := rfl
    rw [hprep]
    cases hio with
    | inl hr =>
      simp only [Fwd.startPrepare, hcall, hr]
      exact ⟨ha, rfl, by simp [hr], by omega, readInv_start c.request hbm⟩
    | inr hio =>
      cases hio with
      | inl hr =>
        simp only [Fwd.startPrepare, hcall, hr]
        exact ⟨ha, rfl, by simp [hr], by omega, readInv_start c.request hbm⟩
      | inr hr =>
        simp only [Fwd.startPrepare, hcall, hr, hedges, if_true]
        exact ⟨ha, rfl, by omega, hbm, rfl⟩
  | readLoop p i =>
    rw [htx] at h
    obtain ⟨rfl, hnw, hi, hinv⟩ := h
    have hfits : Fits bm₀ p.call.request := hfit.resolve_left hnw
    rw [handle_readLoop htx ha] at hs
    cases hs
    by_cases hle : i ≤ p.call.request.blockIndexEnd
    · have hnext : (i + 1) % 2 ^ 64 = i + 1 := Nat.mod_eq_of_lt (by omega)
      cases hinv.step (by omega) with
      | inl hstep =>
        obtain ⟨⟨bm, req⟩, hb, hinv'⟩ := hstep
        simp only [Fwd.txReadLoop, hle, if_true, hb, hnext]
        exact ⟨ha, rfl, hnw, by omega, hinv'⟩
      | inr hfull =>
        have hmono := @gaps_mono (missing bm₀) p.call.request.blockIndexStart
          (i + 1 - p.call.request.blockIndexStart)
          (p.call.request.blockIndexEnd + 1 - p.call.request.blockIndexStart) (by omega)
        have hfew := hfits.few
        omega
    · have he : i = p.call.request.blockIndexEnd + 1 := by omega
      simp only [Fwd.txReadLoop, hle, if_false, Fwd.finishPrepare]
      exact ⟨ha, (table_sendable hd hend (he ▸ hinv.table)).mpr hfits.short⟩
  | writeLoop p getStart getEnd i =>
    rw [htx] at h
    obtain ⟨rfl, hi, hsized, hreq⟩ := h
    rw [handle_writeLoop htx ha] at hs
    cases hs
    by_cases hle : i ≤ p.call.request.blockIndexEnd
    · have hnext : (i + 1) % 2 ^ 64 = i + 1 := Nat.mod_eq_of_lt (by omega)
      have hin : Inside f.cbitmap i := inside_of_lt hsized (by omega)
      simp only [Fwd.txWriteLoop, hle, if_true, prepareWriteBlock, hin, hnext]
      refine ⟨ha, rfl, by omega, ?_, hreq⟩
      cases bitmapTest f.cbitmap i with
      | true => exact hsized
      | false => simpa [Sized] using hsized
    · have hok := edgeReqs_sendable hd hsta hend getStart getEnd
      simp only [Fwd.txWriteLoop, hle, if_false, hreq, List.nil_append, hok.1, if_true,
        Fwd.finishPrepare]
      exact ⟨ha, hok.2⟩
  | send p i =>
    rw [htx] at h
    rw [handle_send htx ha] at hs
    cases hs
    cases hrr : p.req[i]? with
    | none =>
      simp only [Fwd.txSend, hrr]
      exact ⟨ha, trivial⟩
    | some rr =>
      have hok := h rr (List.mem_of_getElem? hrr)
      cases sent with
      | true =>
        simp only [Fwd.txSend, hrr, hok, if_true]
        exact ⟨ha, h⟩
      | false =>
        simp only [Fwd.txSend, hrr, hok, if_true]
        exact ⟨ha, h⟩

/-- The thread runs through the loop of `prepare_read_priv`. -/
theorem readLoop_run (fuel : Nat) (htx : f.tx = .readLoop p i) (ha : f.aborted = false) :
    (∀ bm req, forLoop (fun s i => prepareReadBlock s.1 s.2 i) p.call.request.blockIndexEnd fuel i
          (f.cbitmap, p.req) = .left (bm, req) →
        ∃ sents, run (handle cfg remote) f sents =
          some ({ f with cbitmap := bm }.finishPrepare { p with req := req })) ∧
      ∀ j, forLoop (fun s i => prepareReadBlock s.1 s.2 i) p.call.request.blockIndexEnd fuel i
          (f.cbitmap, p.req) = .stopped j →
        ∃ sents g, run (handle cfg remote) f sents = some g ∧ g.aborted = true := by
  induction fuel generalizing f p i with
  | zero =>
    constructor
    · intro bm req h
      cases h
    · intro j h
      cases h
  | succ fuel ih =>
    have hstep : ∀ sents, run (handle cfg remote) f (true :: sents) =
        run (handle cfg remote) (f.txReadLoop p i) sents := run_step (handle_readLoop htx ha)
    by_cases hle : i ≤ p.call.request.blockIndexEnd
    · cases hb : prepareReadBlock f.cbitmap p.req i with
      | none =>
        have hf : f.txReadLoop p i = f.abort := by simp only [Fwd.txReadLoop, hle, if_true, hb]
        simp only [forLoop, hle, if_true, hb]
        constructor
        · intro bm req h
          cases h
        · intro j _
          exact ⟨[true], f.abort, by rw [hstep, hf, run_nil], rfl⟩
      | some s =>
        obtain ⟨bm', req'⟩ := s
        have hf : f.txReadLoop p i = { f with
            cbitmap := bm', tx := .readLoop { p with req := req' } ((i + 1) % 2 ^ 64) } := by
          simp only [Fwd.txReadLoop, hle, if_true, hb]
        simp only [forLoop, hle, if_true, hb]
        rw [hf] at hstep
        obtain ⟨hleft, hstop⟩ := @ih { f with
            cbitmap := bm', tx := .readLoop { p with req := req' } ((i + 1) % 2 ^ 64) }
          { p with req := req' } ((i + 1) % 2 ^ 64) rfl ha
        constructor
        · intro bm req h
          obtain ⟨sents, hrun⟩ := hleft bm req h
          exact ⟨true :: sents, (hstep sents).trans hrun⟩
        · intro j h
          obtain ⟨sents, g, hrun, hg⟩ := hstop j h
          exact ⟨true :: sents, g, (hstep sents).trans hrun, hg⟩
    · have hf : f.txReadLoop p i = f.finishPrepare p := by
        simp only [Fwd.txReadLoop, hle, if_false]
      simp only [forLoop, hle, if_false]
      constructor
      · intro bm req h
        cases h
        exact ⟨[true], by rw [hstep, hf, run_nil]⟩
      · intro j h
        cases h

/-- The thread runs through the loop of `prepare_write_priv`. -/
theorem writeLoop_run {getStart getEnd : Bool} {bm : Words} (fuel : Nat)
    (htx : f.tx = .writeLoop p getStart getEnd i) (ha : f.aborted = false)
    (hreq : (p.req ++ edgeReqs p.call.request getStart getEnd).length ≤ maxnblock)
    (h : forLoop prepareWriteBlock p.call.request.blockIndexEnd fuel i f.cbitmap = .left bm) :
    ∃ sents, run (handle cfg remote) f sents =
      some ({ f with cbitmap := bm }.finishPrepare
        { p with req := p.req ++ edgeReqs p.call.request getStart getEnd }) := by
  induction fuel generalizing f i with
  | zero => cases h
  | succ fuel ih =>
    have hstep : ∀ sents, run (handle cfg remote) f (true :: sents) =
        run (handle cfg remote) (f.txWriteLoop p getStart getEnd i) sents := run_step (handle_writeLoop htx ha)
    by_cases hle : i ≤ p.call.request.blockIndexEnd
    · cases hb : prepareWriteBlock f.cbitmap i with
      | none =>
        simp only [forLoop, hle, if_true, hb] at h
        cases h
      | some bm' =>
        have hf : f.txWriteLoop p getStart getEnd i = { f with
            cbitmap := bm', tx := .writeLoop p getStart getEnd ((i + 1) % 2 ^ 64) } := by
          simp only [Fwd.txWriteLoop, hle, if_true, hb]
        simp only [forLoop, hle, if_true, hb] at h
        rw [hf] at hstep
        obtain ⟨sents, hrun⟩ := @ih { f with
            cbitmap := bm', tx := .writeLoop p getStart getEnd ((i + 1) % 2 ^ 64) }
          ((i + 1) % 2 ^ 64) rfl ha h
        exact ⟨true :: sents, (hstep sents).trans hrun⟩
    · have hf : f.txWriteLoop p getStart getEnd i =
          f.finishPrepare { p with req := p.req ++ edgeReqs p.call.request getStart getEnd } := by
        simp only [Fwd.txWriteLoop, hle, if_false, hreq, if_true]
      simp only [forLoop, hle, if_false] at h
      cases h
      exact ⟨[true], by rw [hstep, hf, run_nil]⟩

/-- The sending loop passes the request on, or it fails an assertion. -/
theorem send_run (n : Nat) (hn : p.req.length - i = n) (htx : f.tx = .send p i)
    (ha : f.aborted = false) :
    ((∀ rr ∈ p.req.drop i, Sendable (remoteRange disksize rr)) →
        ∃ sents g p', run (handle cfg remote) f sents = some g ∧ g.tx = .idle ∧
          g.fwdRxQueue = f.fwdRxQueue ++ [.req p'] ∧ p'.call = p.call) ∧
      ((∃ rr ∈ p.req.drop i, ¬Sendable (remoteRange disksize rr)) →
        ∃ sents g, run (handle cfg remote) f sents = some g ∧ g.aborted = true) := by
  induction n generalizing f i with
  | zero =>
    have hstep : ∀ sents, run (handle cfg remote) f (true :: sents) =
        run (handle cfg remote) (f.txSend p i true) sents := run_step (handle_send htx ha)
    have hdrop : p.req.drop i = [] := List.drop_eq_nil_of_le (by omega)
    have hnone : p.req[i]? = none := List.getElem?_eq_none (by omega)
    constructor
    · intro _
      refine ⟨[true], f.txSend p i true, { p with needRetry := p.needRetry || f.sendingFailed },
        by rw [hstep, run_nil], ?_, ?_, rfl⟩
      · simp only [Fwd.txSend, hnone]
      · simp only [Fwd.txSend, hnone]
    · intro hbad
      obtain ⟨rr, hrr, -⟩ := hbad
      rw [hdrop] at hrr
      cases hrr
  | succ n ih =>
    have hstep : ∀ sents, run (handle cfg remote) f (true :: sents) =
        run (handle cfg remote) (f.txSend p i true) sents := run_step (handle_send htx ha)
    have hlt : i < p.req.length := by omega
    have hdrop : p.req.drop i = p.req[i] :: p.req.drop (i + 1) := List.drop_eq_getElem_cons hlt
    have hsome : p.req[i]? = some p.req[i] := List.getElem?_eq_getElem hlt
    by_cases hok : Sendable (remoteRange disksize p.req[i])
    · have hf : f.txSend p i true = { f with
          wire := f.wire ++ [remoteRange disksize p.req[i]], tx := .send p (i + 1) } := by
        simp only [Fwd.txSend, hsome, hok, if_true]
      rw [hf] at hstep
      obtain ⟨hpass, habort⟩ := @ih { f with
          wire := f.wire ++ [remoteRange disksize p.req[i]], tx := .send p (i + 1) } (i + 1)
        (by omega) rfl ha
      constructor
      · intro hall
        obtain ⟨sents, g, p', hrun, hg⟩ := hpass fun rr hrr =>
          hall rr (hdrop ▸ List.mem_cons_of_mem _ hrr)
        exact ⟨true :: sents, g, p', (hstep sents).trans hrun, hg⟩
      · intro hbad
        obtain ⟨rr, hrr, hno⟩ := hbad
        rw [hdrop] at hrr
        cases hrr with
        | head => exact absurd hok hno
        | tail _ hrr =>
          obtain ⟨sents, g, hrun, hg⟩ := habort ⟨rr, hrr, hno⟩
          exact ⟨true :: sents, g, (hstep sents).trans hrun, hg⟩
    · have hf : f.txSend p i true = f.abort := by simp only [Fwd.txSend, hsome, hok, if_false]
      constructor
      · intro hall
        exact absurd (hall _ (hdrop ▸ List.mem_cons_self)) hok
      · intro _
        exact ⟨[true], f.abort, by rw [hstep, hf, run_nil], rfl⟩

/-- A READ or CACHE that does not abort the proxy fits the table, and the thread
gets as far as sending it. -/
theorem read_handled (hd : disksize ≤ offMax) (h0 : 0 ≤ c.request.iofrom)
    (hlen : 1 ≤ c.request.iolen) (hbm : Sized disksize f.cbitmap)
    (hio : c.request.iotype = .read ∨ c.request.iotype = .cache)
    (htx : f.tx = .got (.req (.fresh c))) (ha : f.aborted = false)
    (hs : ∀ sents g, run (handle cfg remote) f sents = some g → g.aborted = false) :
    Fits f.cbitmap c.request ∧ ∃ sents g p, run (handle cfg remote) f sents = some g ∧
      g.tx = .idle ∧ g.fwdRxQueue = f.fwdRxQueue ++ [.req p] ∧ p.call = c := by
  obtain ⟨hord, hend, hmax⟩ := bounds hd h0 (by omega)
  have hbegin : handle cfg remote f true =
      some { f with tx := .readLoop (.fresh c) c.request.blockIndexStart } := by
    rw [handle_got htx ha]
    have hcall : (Priv.fresh c).call = c := rfl
    have hdone : (Priv.fresh c).prepareDone = false := rfl
    cases hio with
    | inl hr => simp [Fwd.txGot, hdone, Fwd.startPrepare, hcall, hr]
    | inr hr => simp [Fwd.txGot, hdone, Fwd.startPrepare, hcall, hr]
  have hfirst := run_step hbegin []
  have hloop := forLoop_within (s := (f.cbitmap, [])) (fun s i => prepareReadBlock s.1 s.2 i)
    (ReadInv f.cbitmap c.request) hmax hord (Nat.le_add_right (c.request.blockIndexEnd + 2) _)
    (readInv_start c.request hbm) (fun i s s' _ hi hinv hb => by
      cases hinv.step (by omega) with
      | inl hstep =>
        obtain ⟨t, ht, hinv'⟩ := hstep
        rw [ht] at hb
        cases hb
        exact hinv'
      | inr hfull =>
        rw [hfull.1] at hb
        cases hb)
  obtain ⟨hleft, hstop⟩ := @readLoop_run disksize cfg remote
    { f with tx := .readLoop (.fresh c) c.request.blockIndexStart } (.fresh c)
    c.request.blockIndexStart (c.request.blockIndexEnd + 2) rfl ha
  have hcall : (Priv.fresh c).call = c := rfl
  have hreq : (Priv.fresh c).req = [] := rfl
  rw [hcall, hreq] at hleft hstop
  cases hout : forLoop (fun s i => prepareReadBlock s.1 s.2 i) c.request.blockIndexEnd
      (c.request.blockIndexEnd + 2) c.request.blockIndexStart (f.cbitmap, []) with
  | running =>
    rw [hout] at hloop
    exact hloop.elim
  | stopped j =>
    obtain ⟨sents, g, hrun, hg⟩ := hstop j hout
    have := hs _ g (run_join hfirst hrun)
    rw [hg] at this
    cases this
  | left s =>
    obtain ⟨bm, req⟩ := s
    rw [hout] at hloop
    obtain ⟨sents, hrun⟩ := hleft bm req hout
    have hprep := run_join hfirst hrun
    obtain ⟨hpass, habort⟩ := @send_run disksize cfg remote _ _ 0 _ rfl
      (show (({ f with tx := .readLoop (.fresh c) c.request.blockIndexStart, cbitmap := bm } :
        Fwd disksize).finishPrepare { Priv.fresh c with req := req }).tx = .send _ 0 from rfl) ha
    have hsend : ∀ rr ∈ req, Sendable (remoteRange disksize rr) := by
      intro rr hrr
      by_contra hno
      obtain ⟨sents', g, hrun', hg⟩ := habort ⟨rr, hrr, hno⟩
      have := hs _ g (run_join hprep hrun')
      rw [hg] at this
      cases this
    obtain ⟨sents', g, p', hrun', hidle, hq, hp⟩ := hpass hsend
    refine ⟨⟨?_, (table_sendable hd hend hloop.table).mp hsend⟩, _, g, p', run_join hprep hrun',
      hidle, hq, hp⟩
    have hcount := hloop.table.count
    have hroom := hloop.room
    omega

/-- The remote reads of a WRITE are always sent. -/
theorem write_passes (hd : disksize ≤ offMax) (h0 : 0 ≤ c.request.iofrom)
    (hlen : 1 ≤ c.request.iolen) (hbm : Sized disksize f.cbitmap)
    (hr : c.request.iotype = .write) (htx : f.tx = .got (.req (.fresh c)))
    (ha : f.aborted = false) :
    ∃ sents g p, run (handle cfg remote) f sents = some g ∧ g.tx = .idle ∧
      g.fwdRxQueue = f.fwdRxQueue ++ [.req p] ∧ p.call = c := by
  obtain ⟨hedges, fuel, bm, hloop⟩ := writePriv_inside hd h0 (by omega) hbm
  obtain ⟨hsta, hend⟩ := blockIndexEnd_lt hd h0 hlen
  have hcall : (Priv.fresh c).call = c := rfl
  have hdone : (Priv.fresh c).prepareDone = false := rfl
  have hreq : (Priv.fresh c).req = [] := rfl
  obtain ⟨hmax, hsend⟩ := edgeReqs_sendable hd hsta hend
    (c.request.getStartBlock (bitmapTest f.cbitmap)) (c.request.getEndBlock (bitmapTest f.cbitmap))
  have hbegin : handle cfg remote f true = some { f with
      tx := .writeLoop (.fresh c)
        (c.request.getStartBlock (bitmapTest f.cbitmap))
        (c.request.getEndBlock (bitmapTest f.cbitmap)) c.request.blockIndexStart } := by
    rw [handle_got htx ha]
    simp [Fwd.txGot, hdone, Fwd.startPrepare, hcall, hr, hedges]
  have hfirst := run_step hbegin []
  obtain ⟨sents, hrun⟩ := @writeLoop_run disksize cfg remote _ (.fresh c) _ _ _ bm fuel
    (show ({ f with
      tx := .writeLoop (.fresh c)
        (c.request.getStartBlock (bitmapTest f.cbitmap))
        (c.request.getEndBlock (bitmapTest f.cbitmap)) c.request.blockIndexStart } :
          Fwd disksize).tx = .writeLoop (.fresh c) _ _ _ from rfl) ha
    (by rw [hreq, List.nil_append, hcall]; exact hmax) hloop
  have hprep := run_join hfirst hrun
  obtain ⟨hpass, -⟩ := @send_run disksize cfg remote _ _ 0 _ rfl
    (show (({ f with
      tx := .writeLoop (.fresh c)
        (c.request.getStartBlock (bitmapTest f.cbitmap))
        (c.request.getEndBlock (bitmapTest f.cbitmap)) c.request.blockIndexStart
      cbitmap := bm } : Fwd disksize).finishPrepare { Priv.fresh c with
          req := (Priv.fresh c).req ++ edgeReqs (Priv.fresh c).call.request
            (c.request.getStartBlock (bitmapTest f.cbitmap))
            (c.request.getEndBlock (bitmapTest f.cbitmap)) }).tx = .send _ 0 from rfl) ha
  obtain ⟨sents', g, p', hrun', hidle, hq, hp⟩ := hpass hsend
  exact ⟨_, g, p', run_join hprep hrun', hidle, hq, hp⟩

end Thread

/-- The thread handles every WRITE, and a READ or CACHE exactly if the bitmap
has few and short enough gaps in its range. -/
theorem forwarder_tx_handles_iff (cfg : Config disksize) (remote : File) (f : Fwd disksize)
    (c : Call disksize) (hbm : Sized disksize f.cbitmap) (ha : f.aborted = false)
    (htx : f.tx = .got (.req (.fresh c))) (h0 : 0 ≤ c.request.iofrom)
    (hlen : 1 ≤ c.request.iolen)
    (hio : c.request.iotype = .read ∨ c.request.iotype = .cache ∨ c.request.iotype = .write) :
    Handles cfg remote f c ↔ c.request.iotype = .write ∨ Fits f.cbitmap c.request := by
  have hd := cfg.size_max
  constructor
  · intro h
    by_cases hr : c.request.iotype = .write
    · exact .inl hr
    · have hio' : c.request.iotype = .read ∨ c.request.iotype = .cache := by
        simpa [hr] using hio
      exact .inr (read_handled hd h0 hlen hbm hio' htx ha h.survives).1
  · intro hfit
    obtain ⟨hsta, hend⟩ := blockIndexEnd_lt hd h0 hlen
    have hedges := (writePriv_inside hd h0 (by omega) hbm).1
    have hstart : Serving f.cbitmap c f := by
      rw [Serving, htx]
      exact ⟨ha, rfl, rfl⟩
    have hsurvives : ∀ sents g, run (handle cfg remote) f sents = some g → g.aborted = false := by
      intro sents g hrun
      have hserve := run_invariant (P := fun _ _ => True) (I := Serving f.cbitmap c)
        (fun s a t hs _ ht => serving_step hd hsta hend hbm hedges hio hfit hs ht) hstart
        (along_true (handle cfg remote) f sents) hrun
      exact hserve.1
    refine ⟨hsurvives, ?_⟩
    by_cases hr : c.request.iotype = .write
    · exact write_passes hd h0 hlen hbm hr htx ha
    · have hio' : c.request.iotype = .read ∨ c.request.iotype = .cache := by
        simpa [hr] using hio
      exact (read_handled hd h0 hlen hbm hio' htx ha hsurvives).2

section Example

/-- `forwarder_tx` has just popped a request. -/
def popped (cbitmap : Words) (c : Call disksize) : Fwd disksize :=
  { initial cbitmap (fun _ => 0) with tx := .got (.req (.fresh c)) }

theorem blocks_pos : 0 < 262144 := by decide

theorem blocks_le_offMax : 262144 ≤ offMax := by decide

/-- 64 blocks. -/
def config : Config 262144 :=
  ⟨4096, false, 0, 0, blocks_pos, blocks_le_offMax, page_pos, page_le⟩

def readAll : Call 262144 where
  session := 0
  handle := 0
  request := ⟨.read, 0, 262144, [], by constructor <;> decide, by decide⟩

theorem forwarder_tx_handles_iff_empty :
    Fits [0#64] readAll.request ∧ Handles config (fun _ => 0) (popped [0#64] readAll) readAll := by
  have hfits : Fits [0#64] readAll.request := by
    constructor
    · decide
    · intro b _ hb
      have hend : readAll.request.blockIndexEnd = 63 := by decide
      omega
  exact ⟨hfits, (forwarder_tx_handles_iff config (fun _ => 0) (popped [0#64] readAll) readAll
    (by decide) rfl rfl (by decide) (by decide) (.inl rfl)).mpr (.inr hfits)⟩

/-- Every second block is cached: the READ of the whole disk has 32 gaps, and at the last
one the table is full. -/
theorem forwarder_tx_table_full :
    (∃ g, run (handle config (fun _ => 0)) (popped [0xAAAAAAAAAAAAAAAA#64] readAll)
      (List.replicate 64 true) = some g ∧ g.aborted = true) ∧
    ¬Handles config (fun _ => 0) (popped [0xAAAAAAAAAAAAAAAA#64] readAll) readAll := by
  have hrun : (run (handle config (fun _ => 0)) (popped [0xAAAAAAAAAAAAAAAA#64] readAll)
      (List.replicate 64 true)).any (fun g => g.aborted) = true := by
    decide +kernel
  rw [Option.any_eq_true] at hrun
  refine ⟨hrun, fun h => ?_⟩
  obtain ⟨g, hg, haborted⟩ := hrun
  rw [h.survives _ g hg] at haborted
  cases haborted

end Example

end Xnbd.Fragments
