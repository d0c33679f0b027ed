import Xnbd.Bitmap
import Xnbd.Negotiate

/-!
# Caching the whole disk (`cache_all_blocks_async` in `xnbd_bgctl.c`)

`xnbd-bgctl --cache-all` walks over the bitmap that it shares with the proxy, asks
for every run of blocks that are not cached, and tells a receiving thread about
every block. The proxy sets bits meanwhile. What a test of a bit finds is therefore
a function of the number of tests before it.
-/
namespace Xnbd.CacheAll

open CInt Block Bitmap Negotiate

section Model

/-- What is pushed to the receiver. -/
inductive Token where
  | eof
  | remoteFirst
  | remoteLater
  | cached
  deriving DecidableEq

/-- A CACHE request: the run of blocks that it is for, and what is sent. -/
structure CacheRequest where
  first : Nat
  afterLast : Nat
  iofrom : Int
  iolen : Nat
  deriving DecidableEq

/-- What the loops have done so far: the calls of `bitmap_test` with their results, the
requests, the runs that were skipped, and the tokens. -/
structure Done where
  tests : List (Nat × Bool)
  requests : List CacheRequest
  skipped : List (Nat × Nat)
  tokens : List Token

/-- The loops are left, an assertion ends the process, or they still go on. -/
inductive Outcome where
  | left (d : Done)
  | aborted (d : Done)
  | running (d : Done)

def Outcome.done : Outcome → Done
  | .left d | .aborted d | .running d => d

variable (bits : Nat → Nat → Bool)

/-- `bitmap_test(bm, i)`. -/
def test (d : Done) (i : Nat) : Bool × Done :=
  (bits d.tests.length i, { d with tests := d.tests ++ [(i, bits d.tests.length i)] })

/-- The two scanning loops: `for (; bitmap_test(bm, i) == want && (i < max); i++);` with
`n` for `max - i`. The bit is tested before the bound. -/
def scan (want : Bool) : Nat → Nat → Done → Nat × Done
  | 0, i, d => (i, (test bits d i).2)
  | n + 1, i, d =>
    if (test bits d i).1 = want then scan want n (i + 1) (test bits d i).2
    else (i, (test bits d i).2)

/-- The request for the blocks from `first` to `afterLast`, if there are any, with its
tokens. `none` when an assertion of `nbd_client_send_request_header` fails. -/
def request (disksize : Nat) (first afterLast : Nat) (d : Done) : Option Done :=
  if first < afterLast then
    let iofrom : Int := toInt64 (first * cblocksize : Nat)
    let iolen := confineIolenWithinDisk disksize iofrom
      (toUint64 (toInt64 ((afterLast - first) * cblocksize : Nat)))
    if (nbdClientSendRequestHeader (iotypeCode .cache) iofrom iolen (2 ^ 64 - 1)).isSome then
      some { d with
        requests := d.requests ++ [⟨first, afterLast, iofrom, iolen⟩]
        tokens := d.tokens ++ (List.range' first (afterLast - first)).map fun i =>
          if i = first then .remoteFirst else .remoteLater }
    else none
  else some d

/-- The blocks from `afterLast` to `first` are cached already. -/
def skip (afterLast first : Nat) (d : Done) : Done :=
  if afterLast < first then
    { d with
      skipped := d.skipped ++ [(afterLast, first)]
      tokens := d.tokens ++ (List.range' afterLast (first - afterLast)).map fun _ => .cached }
  else d

/-- `while (first < AFTER_LAST_MAX)`, with fuel. -/
def chunk (disksize afterLastMax : Nat) : Nat → Nat → Done → Outcome
  | 0, _, d => .running d
  | fuel + 1, first, d =>
    if first < afterLastMax then
      let m := scan bits false (afterLastMax - first) first d
      match request disksize first m.1 m.2 with
      | none => .aborted m.2
      | some d =>
        let m' := scan bits true (afterLastMax - m.1) m.1 d
        chunk disksize afterLastMax fuel m'.1 (skip m.1 m'.1 m'.2)
    else .left d

/-- The loop over `index`, with the fuel of the inner loop and its own. -/
def chunks (disksize blocksAtOnce inner : Nat) : Nat → Nat → Done → Outcome
  | 0, _, d => .running d
  | fuel + 1, index, d =>
    if index < getDiskNblocks disksize then
      match chunk bits disksize (min ((index + blocksAtOnce) % 2 ^ 64) (getDiskNblocks disksize))
          inner index d with
      | .left d => chunks disksize blocksAtOnce inner fuel ((index + blocksAtOnce) % 2 ^ 64) d
      | ended => ended
    else .left d

def cacheAllBlocksAsync (disksize blocksAtOnce fuel : Nat) : Outcome :=
  chunks bits disksize blocksAtOnce fuel fuel 0 ⟨[], [], [], []⟩

/-- The progress of the receiver, and the replies that it has waited for. -/
structure Received where
  replies : Nat
  blocksFromRemote : Nat
  blocksFromCache : Nat
  deriving DecidableEq

/-- A round of `cache_all_blocks_receiver_main`. -/
def receive (p : Received) : Token → Received
  | .eof => p
  | .remoteFirst => { p with replies := p.replies + 1, blocksFromRemote := p.blocksFromRemote + 1 }
  | .remoteLater => { p with blocksFromRemote := p.blocksFromRemote + 1 }
  | .cached => { p with blocksFromCache := p.blocksFromCache + 1 }

/-- The receiver after the tokens before the first end-of-file. -/
def receiver (tokens : List Token) : Received :=
  (tokens.takeWhile (· ≠ .eof)).foldl receive ⟨0, 0, 0⟩

end Model

section Scans

variable (bits : Nat → Nat → Bool) (want : Bool)

/-- What a scan from `i` to `j` has tested, each block once. -/
def scanLog (start i j : Nat) : List (Nat × Bool) :=
  (List.range' i (j + 1 - i)).map fun k => (k, bits (start + (k - i)) k)

theorem scanLog_single (start i : Nat) : scanLog bits start i i = [(i, bits start i)] := by
  simp [scanLog]

theorem scanLog_cons {start i j : Nat} (h : i < j) :
    scanLog bits start i j = (i, bits start i) :: scanLog bits (start + 1) (i + 1) j := by
  have hlen : j + 1 - i = (j + 1 - (i + 1)) + 1 := by omega
  rw [scanLog, hlen, List.range'_succ, List.map_cons, Nat.sub_self, Nat.add_zero, scanLog]
  congr 1
  apply List.map_congr_left
  intro k hk
  have hle := (List.mem_range'_1.mp hk).1
  have htime : start + (k - i) = start + 1 + (k - (i + 1)) := by omega
  rw [htime]

/-- A scan of at most `n` blocks from `i` on stops at `j`: at the first block of the other
kind, or at the bound. -/
structure Stops (start i n j : Nat) : Prop where
  ge : i ≤ j
  le : j ≤ i + n
  all : ∀ k, i ≤ k → k < j → bits (start + (k - i)) k = want
  other : j < i + n → bits (start + (j - i)) j ≠ want

/-- It tests the block where it stops, also at the bound. -/
theorem scan_eq (n i : Nat) (d : Done) :
    ∃ j, Stops bits want d.tests.length i n j ∧
      scan bits want n i d = (j, { d with tests := d.tests ++ scanLog bits d.tests.length i j }) := by
  induction n generalizing i d with
  | zero =>
    have hstops : Stops bits want d.tests.length i 0 i :=
      ⟨Nat.le_refl i, Nat.le_refl i, fun k h0 h1 => by omega, fun h => by omega⟩
    exact ⟨i, hstops, by rw [scan, test, scanLog_single]⟩
  | succ n ih =>
    by_cases hb : bits d.tests.length i = want
    · obtain ⟨j, hstops, hscan⟩ := ih (i + 1)
        { d with tests := d.tests ++ [(i, bits d.tests.length i)] }
      simp only [List.length_append, List.length_singleton] at hscan hstops
      obtain ⟨hge, hle, hall, hother⟩ := hstops
      have hlog : scanLog bits d.tests.length i j = _ := scanLog_cons bits (by omega)
      have htime : ∀ k, i + 1 ≤ k →
          d.tests.length + 1 + (k - (i + 1)) = d.tests.length + (k - i) := by
        intro k hk
        omega
      have hstops' : Stops bits want d.tests.length i (n + 1) j := by
        constructor
        · omega
        · omega
        · intro k h0 h1
          by_cases hk : k = i
          · rw [hk, Nat.sub_self]
            exact hb
          · have h := hall k (by omega) h1
            rwa [htime k (by omega)] at h
        · intro hlt
          have h := hother (by omega)
          rwa [htime j hge] at h
      exact ⟨j, hstops', by rw [scan, test, if_pos hb, hscan, hlog, List.append_assoc]; rfl⟩
    · have hstops : Stops bits want d.tests.length i (n + 1) i :=
        ⟨Nat.le_refl i, by omega, fun k h0 h1 => by omega, fun _ => by rwa [Nat.sub_self]⟩
      exact ⟨i, hstops, by rw [scan, test, if_neg hb, scanLog_single]⟩

end Scans

section Requests

variable {disksize : Nat}

theorem nblocks_bounds (hd : disksize ≤ offMax) {b : Nat} (hb : b ≤ getDiskNblocks disksize) :
    b * cblocksize < disksize + cblocksize ∧ b ≤ 2 ^ 51 := by
  unfold offMax at hd
  unfold getDiskNblocks at hb
  unfold cblocksize at hb ⊢
  split at hb <;> omega

/-- The bytes of a run of blocks that are on the disk. -/
def runLength (disksize first afterLast : Nat) : Nat :=
  min disksize (afterLast * cblocksize) - first * cblocksize

theorem toUint64_toInt64 {n : Nat} (h : n < 2 ^ 64) : toUint64 (toInt64 n) = n := by
  unfold toUint64 toInt64
  split <;> omega

theorem confine_run (hd : disksize ≤ offMax) {first afterLast : Nat} (hlt : first < afterLast)
    (hle : afterLast ≤ getDiskNblocks disksize) :
    toInt64 (first * cblocksize : Nat) = (first * cblocksize : Nat) ∧
      confineIolenWithinDisk disksize (first * cblocksize : Nat)
        (toUint64 (toInt64 ((afterLast - first) * cblocksize : Nat))) =
          runLength disksize first afterLast := by
  have hstart : first * cblocksize < disksize := block_start_lt (Nat.lt_of_lt_of_le hlt hle)
  obtain ⟨hend, hbound⟩ := nblocks_bounds hd hle
  have hmul : (afterLast - first) * cblocksize = afterLast * cblocksize - first * cblocksize :=
    Nat.sub_mul _ _ _
  have hless : first * cblocksize ≤ afterLast * cblocksize := Nat.mul_le_mul_right _ (by omega)
  have hmax := hd
  unfold offMax at hmax
  rw [hmul, runLength]
  generalize first * cblocksize = a at *
  generalize afterLast * cblocksize = e at *
  unfold cblocksize at hend
  constructor
  · exact toInt64_of_range (by omega) (by omega)
  · rw [toUint64_toInt64 (by omega), confineIolenWithinDisk_natCast hd (by omega)]
    omega

/-- A request is sent unless it is for 4 GiB or more. -/
theorem request_eq (hd : disksize ≤ offMax) {first afterLast : Nat} (hlt : first < afterLast)
    (hle : afterLast ≤ getDiskNblocks disksize) (d : Done) :
    request disksize first afterLast d =
      if runLength disksize first afterLast < 2 ^ 32 then
        some { d with
          requests := d.requests ++
            [⟨first, afterLast, (first * cblocksize : Nat), runLength disksize first afterLast⟩]
          tokens := d.tokens ++ (List.range' first (afterLast - first)).map fun i =>
            if i = first then .remoteFirst else .remoteLater }
      else none := by
  obtain ⟨hfrom, hlen⟩ := confine_run hd hlt hle
  have hstart : first * cblocksize < disksize := block_start_lt (Nat.lt_of_lt_of_le hlt hle)
  have hon : first * cblocksize + runLength disksize first afterLast ≤ disksize := by
    unfold runLength
    omega
  have hassert : ((first * cblocksize : Nat) : Int) + runLength disksize first afterLast ≤ offMax := by
    omega
  have hsend : (nbdClientSendRequestHeader (iotypeCode .cache) (first * cblocksize : Nat)
      (runLength disksize first afterLast) (2 ^ 64 - 1)).isSome = true ↔
        runLength disksize first afterLast < 2 ^ 32 := by
    rw [nbdClientSendRequestHeader, toUint64_of_range (by omega) (by unfold offMax at hassert; omega)]
    split
    · simp only [Option.isSome_some, true_iff]
      omega
    · rename_i hnot
      simp only [Option.isSome_none, Bool.false_eq_true, false_iff]
      intro hsmall
      exact hnot ⟨by omega, by omega, by omega⟩
  rw [request, if_pos hlt]
  dsimp only
  rw [hfrom, hlen]
  by_cases hsmall : runLength disksize first afterLast < 2 ^ 32
  · rw [if_pos (hsend.mpr hsmall), if_pos hsmall]
  · rw [if_neg (fun hs => hsmall (hsend.mp hs)), if_neg hsmall]

/-- No request for a disk below 4 GiB, or for fewer than 2^20 blocks, is too long. -/
theorem runLength_lt {first afterLast blocksAtOnce : Nat} (hsize : afterLast ≤ first + blocksAtOnce)
    (h : blocksAtOnce < 2 ^ 20 ∨ disksize < 2 ^ 32) : runLength disksize first afterLast < 2 ^ 32 := by
  have hmul : afterLast * cblocksize ≤ first * cblocksize + blocksAtOnce * cblocksize := by
    rw [← Nat.add_mul]
    exact Nat.mul_le_mul_right _ hsize
  unfold runLength
  unfold cblocksize at *
  omega

end Requests

section Coverage

/-- The blocks of a run. -/
def run (first afterLast : Nat) : List Nat := List.range' first (afterLast - first)

/-- The blocks that have been asked for. -/
def Done.requested (d : Done) : List Nat := d.requests.flatMap fun r => run r.first r.afterLast

/-- The blocks that have been counted as cached. -/
def Done.counted (d : Done) : List Nat := d.skipped.flatMap fun s => run s.1 s.2

/-- The bits only change from 0 to 1. -/
def Growing (bits : Nat → Nat → Bool) : Prop :=
  ∀ m n i, m ≤ n → bits m i = true → bits n i = true

/-- What has been done about the blocks before `first`. -/
structure Upto (bits : Nat → Nat → Bool) (disksize blocksAtOnce first : Nat) (d : Done) : Prop where
  blocks : (d.requested ++ d.counted).Perm (List.range first)
  sizes : ∀ r ∈ d.requests, r.first < r.afterLast ∧ r.afterLast ≤ r.first + blocksAtOnce
  bytes : ∀ r ∈ d.requests, r.iofrom = (r.first * cblocksize : Nat) ∧
    r.iolen = runLength disksize r.first r.afterLast
  set : ∀ b ∈ d.counted, ∃ n, d.tests[n]? = some (b, true) ∧ bits n b = true
  length : d.tokens.length = first
  firsts : d.tokens.count .remoteFirst = d.requests.length
  cached : d.tokens.count .cached = d.counted.length
  eof : .eof ∉ d.tokens

variable {bits : Nat → Nat → Bool} {disksize blocksAtOnce first afterLast : Nat} {d : Done}

theorem upto_nothing : Upto bits disksize blocksAtOnce 0 ⟨[], [], [], []⟩ where
  blocks := List.Perm.refl _
  sizes := by simp
  bytes := by simp
  set := by simp [Done.counted]
  length := rfl
  firsts := rfl
  cached := rfl
  eof := by simp

/-- More tests do no harm. -/
theorem Upto.tests (h : Upto bits disksize blocksAtOnce first d) (more : List (Nat × Bool)) :
    Upto bits disksize blocksAtOnce first { d with tests := d.tests ++ more } where
  blocks := h.blocks
  sizes := h.sizes
  bytes := h.bytes
  set := by
    intro b hb
    obtain ⟨n, hn, hbit⟩ := h.set b hb
    have hlt := (List.getElem?_eq_some_iff.mp hn).1
    exact ⟨n, by rw [List.getElem?_append_left hlt, hn], hbit⟩
  length := h.length
  firsts := h.firsts
  cached := h.cached
  eof := h.eof

theorem range_append_run (h : first ≤ afterLast) :
    List.range first ++ run first afterLast = List.range afterLast := by
  have happend := @List.range'_append_1 0 first (afterLast - first)
  rw [Nat.zero_add, Nat.add_sub_cancel' h] at happend
  rw [run, List.range_eq_range', List.range_eq_range', happend]

/-- The tokens of a request: the first block, then the others. -/
theorem count_first (hlt : first < afterLast) :
    ((run first afterLast).map fun i => if i = first then Token.remoteFirst else .remoteLater) =
      .remoteFirst :: List.replicate (afterLast - first - 1) .remoteLater := by
  have hlen : afterLast - first = (afterLast - first - 1) + 1 := by omega
  rw [run, hlen, List.range'_succ, List.map_cons, if_pos rfl, Nat.add_sub_cancel]
  congr 1
  rw [List.eq_replicate_iff]
  constructor
  · simp
  · intro token htoken
    obtain ⟨i, hi, rfl⟩ := List.mem_map.mp htoken
    have hle := (List.mem_range'_1.mp hi).1
    rw [if_neg (by omega)]

theorem Upto.request (h : Upto bits disksize blocksAtOnce first d) (hlt : first < afterLast)
    (hsize : afterLast ≤ first + blocksAtOnce) :
    Upto bits disksize blocksAtOnce afterLast
      { d with
        requests := d.requests ++
          [⟨first, afterLast, (first * cblocksize : Nat), runLength disksize first afterLast⟩]
        tokens := d.tokens ++ (List.range' first (afterLast - first)).map fun i =>
          if i = first then .remoteFirst else .remoteLater } := by
  have htokens := count_first hlt
  rw [run] at htokens
  rw [htokens]
  constructor
  · have hmore : ((d.requested ++ run first afterLast) ++ d.counted).Perm
        ((d.requested ++ d.counted) ++ run first afterLast) := by
      rw [List.append_assoc, List.append_assoc]
      exact List.Perm.append_left _ List.perm_append_comm
    simp only [Done.requested, List.flatMap_append, List.flatMap_singleton] at hmore ⊢
    have hall := hmore.trans (h.blocks.append_right (run first afterLast))
    rwa [range_append_run (Nat.le_of_lt hlt)] at hall
  · rw [List.forall_mem_append, List.forall_mem_singleton]
    exact ⟨h.sizes, hlt, hsize⟩
  · rw [List.forall_mem_append, List.forall_mem_singleton]
    exact ⟨h.bytes, rfl, rfl⟩
  · exact h.set
  · rw [List.length_append, h.length, List.length_cons, List.length_replicate]
    omega
  · rw [List.count_append, h.firsts, List.length_append, List.count_cons_self, List.count_replicate]
    simp
  · rw [List.count_append, h.cached, List.count_cons_of_ne (by simp), List.count_replicate]
    simp [Done.counted]
  · simp only [List.mem_append, List.mem_cons, List.mem_replicate, not_or]
    exact ⟨h.eof, by simp, by simp⟩

theorem skip_tests (afterLast first : Nat) (d : Done) : (skip afterLast first d).tests = d.tests := by
  rw [skip]
  split <;> rfl

theorem request_tests {d' : Done} (h : request disksize first afterLast d = some d') :
    d'.tests = d.tests := by
  rw [request] at h
  dsimp only at h
  split at h
  · split at h
    · cases h
      rfl
    · cases h
  · cases h
    rfl

theorem Upto.skip (h : Upto bits disksize blocksAtOnce afterLast d) (hle : afterLast ≤ first)
    (hset : ∀ b, afterLast ≤ b → b < first → ∃ n, d.tests[n]? = some (b, true) ∧ bits n b = true) :
    Upto bits disksize blocksAtOnce first (skip afterLast first d) := by
  rw [CacheAll.skip]
  split
  · constructor
    · simp only [Done.requested, Done.counted, List.flatMap_append, List.flatMap_singleton]
      rw [← List.append_assoc]
      have hall := h.blocks.append_right (run afterLast first)
      rwa [range_append_run hle] at hall
    · exact h.sizes
    · exact h.bytes
    · intro b hb
      simp only [Done.counted, List.flatMap_append, List.flatMap_singleton, List.mem_append] at hb
      cases hb with
      | inl hold => exact h.set b hold
      | inr hnew =>
        rw [run, List.mem_range'_1] at hnew
        exact hset b hnew.1 (by omega)
    · rw [List.length_append, h.length, List.length_map, List.length_range']
      omega
    · rw [List.count_append, h.firsts, List.map_const', List.count_replicate]
      simp
    · rw [List.count_append, h.cached, List.map_const', List.count_replicate]
      simp [Done.counted, run]
    · rw [List.mem_append, not_or]
      exact ⟨h.eof, by simp⟩
  · have heq : afterLast = first := by omega
    rwa [heq] at h

/-- The tests of a scan are those of the log, at their times. -/
theorem scanLog_getElem {start i j k : Nat} (h0 : i ≤ k) (h1 : k ≤ j)
    (before : List (Nat × Bool)) (hstart : before.length = start) :
    (before ++ scanLog bits start i j)[start + (k - i)]? = some (k, bits (start + (k - i)) k) := by
  have hk : i + 1 * (k - i) = k := by omega
  rw [List.getElem?_append_right (by omega), hstart, Nat.add_sub_cancel_left, scanLog,
    List.getElem?_map, List.getElem?_range' (by omega), hk]
  rfl

variable {index afterLastMax : Nat}

/-- No request is too long: there is none, or they are all short. -/
def Sendable (bits : Nat → Nat → Bool) (disksize blocksAtOnce : Nat) : Prop :=
  (∀ n i, bits n i = true) ∨ blocksAtOnce < 2 ^ 20 ∨ disksize < 2 ^ 32

/-- The request of a round, if there is anything to ask for. -/
theorem request_upto (hd : disksize ≤ offMax)
    (hshort : first < afterLast → runLength disksize first afterLast < 2 ^ 32)
    (hge : first ≤ afterLast) (hsize : afterLast ≤ first + blocksAtOnce)
    (hle : afterLast ≤ getDiskNblocks disksize) (h : Upto bits disksize blocksAtOnce first d) :
    ∃ d', CacheAll.request disksize first afterLast d = some d' ∧
      Upto bits disksize blocksAtOnce afterLast d' ∧ d'.tests = d.tests := by
  by_cases hlt : first < afterLast
  · rw [request_eq hd hlt hle, if_pos (hshort hlt)]
    exact ⟨_, rfl, h.request hlt hsize, rfl⟩
  · have heq : first = afterLast := by omega
    rw [CacheAll.request, if_neg hlt]
    exact ⟨d, rfl, heq ▸ h, rfl⟩

/-- The second scan of a round. A bit that the first scan has found set is still set. -/
theorem scan_upto (hgrow : Growing bits) (h : Upto bits disksize blocksAtOnce afterLast d)
    (hle : afterLast ≤ afterLastMax)
    (hset : afterLast < afterLastMax → ∃ n, n ≤ d.tests.length ∧ bits n afterLast = true) :
    ∃ first', afterLast ≤ first' ∧ first' ≤ afterLastMax ∧
      (afterLast < afterLastMax → afterLast < first') ∧
      let m := scan bits true (afterLastMax - afterLast) afterLast d
      m.1 = first' ∧ Upto bits disksize blocksAtOnce first' (CacheAll.skip afterLast m.1 m.2) ∧
        ∃ b, (first', b) ∈ (CacheAll.skip afterLast m.1 m.2).tests := by
  obtain ⟨first', ⟨hge, hbound, hall, hother⟩, hscan⟩ :=
    scan_eq bits true (afterLastMax - afterLast) afterLast d
  have hprogress : afterLast < afterLastMax → afterLast < first' := by
    intro hlt
    obtain ⟨n, hn, hbit⟩ := hset hlt
    by_contra hstay
    have heq : first' = afterLast := by omega
    have hnow := hother (by omega)
    rw [heq, Nat.sub_self] at hnow
    exact hnow (hgrow n d.tests.length afterLast hn hbit)
  have hlog : ∀ k, afterLast ≤ k → k ≤ first' →
      (d.tests ++ scanLog bits d.tests.length afterLast first')[d.tests.length + (k - afterLast)]? =
        some (k, bits (d.tests.length + (k - afterLast)) k) :=
    fun k h0 h1 => scanLog_getElem h0 h1 d.tests rfl
  have hcached := (h.tests (scanLog bits d.tests.length afterLast first')).skip hge
    (fun b h0 h1 => ⟨_, (hall b h0 h1) ▸ hlog b h0 (Nat.le_of_lt h1), hall b h0 h1⟩)
  refine ⟨first', hge, by omega, hprogress, ?_⟩
  rw [hscan]
  exact ⟨rfl, hcached, _, by rw [skip_tests]; exact List.mem_of_getElem? (hlog first' hge (Nat.le_refl _))⟩

/-- One round of the loop inside a chunk. -/
theorem chunk_round (hgrow : Growing bits) (hd : disksize ≤ offMax)
    (hsend : Sendable bits disksize blocksAtOnce) (hsize : afterLastMax ≤ first + blocksAtOnce)
    (hblocks : afterLastMax ≤ getDiskNblocks disksize) (hlt : first < afterLastMax)
    (h : Upto bits disksize blocksAtOnce first d) (fuel : Nat) :
    ∃ first' d', first < first' ∧ first' ≤ afterLastMax ∧
      Upto bits disksize blocksAtOnce first' d' ∧ (∃ b, (first', b) ∈ d'.tests) ∧
      chunk bits disksize afterLastMax (fuel + 1) first d =
        chunk bits disksize afterLastMax fuel first' d' := by
  obtain ⟨afterLast, ⟨hge, hle, hall, hother⟩, hscan⟩ :=
    scan_eq bits false (afterLastMax - first) first d
  have hshort : first < afterLast → runLength disksize first afterLast < 2 ^ 32 := by
    intro hsome
    cases hsend with
    | inl hset =>
      have hclear := hall first (Nat.le_refl _) hsome
      rw [hset] at hclear
      cases hclear
    | inr hsmall => exact runLength_lt (by omega) hsmall
  obtain ⟨d', hrequest, hupto, htests⟩ := request_upto hd hshort hge (by omega) (by omega)
    (h.tests (scanLog bits d.tests.length first afterLast))
  have hset : afterLast < afterLastMax → ∃ n, n ≤ d'.tests.length ∧ bits n afterLast = true := by
    intro hbefore
    have hbit := Bool.eq_true_of_not_eq_false (hother (by omega))
    have hlen : d'.tests.length = d.tests.length + (afterLast + 1 - first) := by
      rw [htests, List.length_append, scanLog, List.length_map, List.length_range']
    exact ⟨_, by omega, hbit⟩
  obtain ⟨first', hge', hle', hprogress, hfirst, hcached, hlast⟩ :=
    scan_upto hgrow hupto (by omega) hset
  refine ⟨first', _, by omega, hle', hcached, hlast, ?_⟩
  rw [chunk, if_pos hlt]
  simp only [hscan, hrequest, hfirst]

/-- A chunk is worked off. Its loop is not left before the block behind it is tested. -/
theorem chunk_left (hgrow : Growing bits) (hd : disksize ≤ offMax)
    (hsend : Sendable bits disksize blocksAtOnce)
    (hblocks : afterLastMax ≤ getDiskNblocks disksize) :
    ∀ (fuel first : Nat) (d : Done), first ≤ afterLastMax → afterLastMax ≤ first + blocksAtOnce →
      afterLastMax - first < fuel → Upto bits disksize blocksAtOnce first d →
      ∃ d', chunk bits disksize afterLastMax fuel first d = .left d' ∧
        Upto bits disksize blocksAtOnce afterLastMax d' ∧
        (first < afterLastMax ∨ (∃ b, (first, b) ∈ d.tests) →
          ∃ b, (afterLastMax, b) ∈ d'.tests) := by
  intro fuel
  induction fuel with
  | zero =>
    intro first d _ _ hfuel _
    omega
  | succ fuel ih =>
    intro first d hfirst hsize hfuel h
    by_cases hlt : first < afterLastMax
    · obtain ⟨first', d', hmore, hle, hupto, htested, hround⟩ :=
        chunk_round hgrow hd hsend hsize hblocks hlt h fuel
      obtain ⟨d'', hleft, hdone, hlast⟩ := ih first' d' hle (by omega) (by omega) hupto
      rw [hround]
      exact ⟨d'', hleft, hdone, fun _ => hlast (.inr htested)⟩
    · have heq : first = afterLastMax := by omega
      subst heq
      rw [chunk, if_neg hlt]
      exact ⟨d, rfl, h, fun htested => htested.resolve_left hlt⟩

/-- The chunks from `index` on. -/
theorem chunks_left (hgrow : Growing bits) (hd : disksize ≤ offMax)
    (hsend : Sendable bits disksize blocksAtOnce) (hone : 1 ≤ blocksAtOnce) {inner : Nat}
    (hinner : getDiskNblocks disksize < inner) :
    ∀ (fuel index : Nat) (d : Done),
      (index < getDiskNblocks disksize → index + blocksAtOnce < 2 ^ 64) →
      getDiskNblocks disksize - index < fuel →
      Upto bits disksize blocksAtOnce (min index (getDiskNblocks disksize)) d →
      ∃ d', chunks bits disksize blocksAtOnce inner fuel index d = .left d' ∧
        Upto bits disksize blocksAtOnce (getDiskNblocks disksize) d' ∧
        (index < getDiskNblocks disksize ∨ (∃ b, (getDiskNblocks disksize, b) ∈ d.tests) →
          ∃ b, (getDiskNblocks disksize, b) ∈ d'.tests) := by
  have hfits := (nblocks_bounds hd (Nat.le_refl _)).2
  intro fuel
  induction fuel with
  | zero =>
    intro index d _ hfuel h
    omega
  | succ fuel ih =>
    intro index d hsum hfuel h
    by_cases hlt : index < getDiskNblocks disksize
    · have hnext : (index + blocksAtOnce) % 2 ^ 64 = index + blocksAtOnce :=
        Nat.mod_eq_of_lt (hsum hlt)
      rw [Nat.min_eq_left (Nat.le_of_lt hlt)] at h
      obtain ⟨d', hleft, hupto, htested⟩ := chunk_left hgrow hd hsend (Nat.min_le_right _ _) inner
        index d (by omega) (Nat.min_le_left (index + blocksAtOnce) (getDiskNblocks disksize))
        (by omega) h
      obtain ⟨d'', hchunks, hdone, hlast⟩ := ih (index + blocksAtOnce) d' (by omega) (by omega) hupto
      rw [chunks, if_pos hlt, hnext, hleft]
      refine ⟨d'', hchunks, hdone, fun _ => hlast ?_⟩
      by_cases hmore : index + blocksAtOnce < getDiskNblocks disksize
      · exact .inl hmore
      · right
        have hend := htested (.inl (by omega))
        rwa [Nat.min_eq_right (by omega)] at hend
    · rw [Nat.min_eq_right (by omega)] at h
      rw [chunks, if_neg hlt]
      exact ⟨d, rfl, h, fun htested => htested.resolve_left hlt⟩

/-- After the whole work on the disk. -/
theorem cacheAll_left (hgrow : Growing bits) (hd : disksize ≤ offMax)
    (hsend : Sendable bits disksize blocksAtOnce) (hone : 1 ≤ blocksAtOnce)
    (hmax : blocksAtOnce < 2 ^ 64) {fuel : Nat} (hfuel : getDiskNblocks disksize < fuel) :
    ∃ d, cacheAllBlocksAsync bits disksize blocksAtOnce fuel = .left d ∧
      Upto bits disksize blocksAtOnce (getDiskNblocks disksize) d ∧
      (0 < getDiskNblocks disksize → ∃ b, (getDiskNblocks disksize, b) ∈ d.tests) := by
  have hnothing : Upto bits disksize blocksAtOnce (min 0 (getDiskNblocks disksize))
      ⟨[], [], [], []⟩ := by
    rw [Nat.zero_min]
    exact upto_nothing
  obtain ⟨d, hleft, hupto, htested⟩ := chunks_left hgrow hd hsend hone hfuel fuel 0
    ⟨[], [], [], []⟩ (by omega) (by omega) hnothing
  exact ⟨d, hleft, hupto, fun hpos => htested (.inl hpos)⟩

end Coverage

section Tests

variable (bits : Nat → Nat → Bool) {disksize bound : Nat}

/-- No block behind `bound` has been tested. -/
def TestsUpto (bound : Nat) (d : Done) : Prop := ∀ t ∈ d.tests, t.1 ≤ bound

theorem scan_testsUpto (want : Bool) {n i : Nat} {d : Done} (h : TestsUpto bound d)
    (hbound : i + n ≤ bound) :
    TestsUpto bound (scan bits want n i d).2 ∧ (scan bits want n i d).1 ≤ i + n := by
  obtain ⟨j, hstops, hscan⟩ := scan_eq bits want n i d
  have hle := hstops.le
  rw [hscan]
  constructor
  · intro t ht
    cases List.mem_append.mp ht with
    | inl hold => exact h t hold
    | inr hnew =>
      obtain ⟨k, hk, rfl⟩ := List.mem_map.mp hnew
      have hlast := (List.mem_range'_1.mp hk).2
      dsimp only
      omega
  · exact hle

theorem chunk_testsUpto {afterLastMax : Nat} (hmax : afterLastMax ≤ bound) :
    ∀ (fuel first : Nat) (d : Done), TestsUpto bound d →
      TestsUpto bound (chunk bits disksize afterLastMax fuel first d).done := by
  intro fuel
  induction fuel with
  | zero =>
    intro first d h
    exact h
  | succ fuel ih =>
    intro first d h
    rw [chunk]
    split
    · rename_i hlt
      obtain ⟨hfirst, hlast⟩ := scan_testsUpto bits false (n := afterLastMax - first) (i := first) h
        (by omega)
      dsimp only
      split
      · exact hfirst
      · rename_i d' hrequest
        have hsent : TestsUpto bound d' := by
          intro t ht
          rw [request_tests hrequest] at ht
          exact hfirst t ht
        obtain ⟨hsecond, -⟩ := scan_testsUpto bits true
          (n := afterLastMax - (scan bits false (afterLastMax - first) first d).1)
          (i := (scan bits false (afterLastMax - first) first d).1) hsent (by omega)
        apply ih
        intro t ht
        rw [skip_tests] at ht
        exact hsecond t ht
    · exact h

theorem chunks_testsUpto (blocksAtOnce inner : Nat) :
    ∀ (fuel index : Nat) (d : Done), TestsUpto (getDiskNblocks disksize) d →
      TestsUpto (getDiskNblocks disksize)
        (chunks bits disksize blocksAtOnce inner fuel index d).done := by
  intro fuel
  induction fuel with
  | zero =>
    intro index d h
    exact h
  | succ fuel ih =>
    intro index d h
    rw [chunks]
    split
    · have hchunk := @chunk_testsUpto bits disksize _ _
        (Nat.min_le_right ((index + blocksAtOnce) % 2 ^ 64) _) inner index d h
      split
      · rename_i d' hleft
        rw [hleft] at hchunk
        exact ih _ d' hchunk
      · exact hchunk
    · exact h

end Tests

section Receiver

theorem receive_counts (tokens : List Token) :
    ∀ p : Received, .eof ∉ tokens →
      tokens.foldl receive p =
        ⟨p.replies + tokens.count .remoteFirst,
          p.blocksFromRemote + tokens.count .remoteFirst + tokens.count .remoteLater,
          p.blocksFromCache + tokens.count .cached⟩ := by
  induction tokens with
  | nil =>
    intro p _
    rfl
  | cons token tokens ih =>
    intro p heof
    obtain ⟨hne, hrest⟩ := not_or.mp (List.mem_cons.not.mp heof)
    rw [List.foldl_cons, ih _ hrest]
    cases token with
    | eof => exact absurd rfl hne
    | remoteFirst => simp [receive]; omega
    | remoteLater => simp [receive]; omega
    | cached => simp [receive]; omega

/-- Every token but the end of file is of one of three kinds. -/
theorem length_tokens {tokens : List Token} (heof : .eof ∉ tokens) :
    tokens.count .remoteFirst + tokens.count .remoteLater + tokens.count .cached =
      tokens.length := by
  induction tokens with
  | nil => rfl
  | cons token tokens ih =>
    obtain ⟨hne, hrest⟩ := not_or.mp (List.mem_cons.not.mp heof)
    have h := ih hrest
    cases token with
    | eof => exact absurd rfl hne
    | remoteFirst => simp; omega
    | remoteLater => simp; omega
    | cached => simp; omega

theorem receiver_eq {tokens : List Token} (heof : .eof ∉ tokens) :
    receiver (tokens ++ [.eof]) = tokens.foldl receive ⟨0, 0, 0⟩ := by
  have htake : (tokens ++ [Token.eof]).takeWhile (· ≠ .eof) = tokens := by
    rw [List.takeWhile_append_of_pos]
    · simp
    · intro token htoken
      exact decide_eq_true fun he => heof (he ▸ htoken)
  rw [receiver, htake]

end Receiver

section Results

/-- Everything is covered: the requests and what is counted as cached make up the disk,
and the receiver is told exactly that. -/
structure Covers (bits : Nat → Nat → Bool) (disksize blocksAtOnce : Nat) (d : Done) : Prop where
  partition : (d.requested ++ d.counted).Perm (List.range (getDiskNblocks disksize))
  sizes : ∀ r ∈ d.requests, r.first < r.afterLast ∧ r.afterLast ≤ r.first + blocksAtOnce
  bytes : ∀ r ∈ d.requests, r.iofrom = (r.first * cblocksize : Nat) ∧
    r.iofrom + r.iolen = (min disksize (r.afterLast * cblocksize) : Nat)
  set : ∀ b ∈ d.counted, ∃ n, d.tests[n]? = some (b, true) ∧ bits n b = true
  tokens : d.tokens.length = getDiskNblocks disksize
  firsts : d.tokens.count .remoteFirst = d.requests.length
  replies : (receiver (d.tokens ++ [.eof])).replies = d.requests.length
  progress : ∀ n, let p := (d.tokens.take n).foldl receive ⟨0, 0, 0⟩
    p.blocksFromCache + p.blocksFromRemote ≤ getDiskNblocks disksize
  total : let p := receiver (d.tokens ++ [.eof])
    p.blocksFromRemote = d.requested.length ∧ p.blocksFromCache = d.counted.length

variable {bits : Nat → Nat → Bool} {disksize blocksAtOnce : Nat} {d : Done}

/-- A request is for blocks of the disk. -/
theorem Upto.first_lt (h : Upto bits disksize blocksAtOnce (getDiskNblocks disksize) d)
    {r : CacheRequest} (hr : r ∈ d.requests) : r.first < getDiskNblocks disksize := by
  have hrun : r.first ∈ run r.first r.afterLast := by
    have hlt := (h.sizes r hr).1
    rw [run, List.mem_range'_1]
    omega
  have hmem : r.first ∈ d.requested ++ d.counted :=
    List.mem_append_left _ (List.mem_flatMap.mpr ⟨r, hr, hrun⟩)
  exact List.mem_range.mp (h.blocks.mem_iff.mp hmem)

theorem Upto.covers (h : Upto bits disksize blocksAtOnce (getDiskNblocks disksize) d) :
    Covers bits disksize blocksAtOnce d := by
  have hreceived := receive_counts d.tokens ⟨0, 0, 0⟩ h.eof
  have hkinds := length_tokens h.eof
  have hblocks := h.blocks.length_eq
  have htokens := h.length
  have hfirsts := h.firsts
  have hcached := h.cached
  rw [List.length_append, List.length_range] at hblocks
  constructor
  · exact h.blocks
  · exact h.sizes
  · intro r hr
    obtain ⟨hfrom, hlen⟩ := h.bytes r hr
    have hlt := (h.sizes r hr).1
    have hstart := block_start_lt (h.first_lt hr)
    have hless : r.first * cblocksize ≤ r.afterLast * cblocksize :=
      Nat.mul_le_mul_right _ (Nat.le_of_lt hlt)
    constructor
    · exact hfrom
    · rw [hfrom, hlen, runLength]
      omega
  · exact h.set
  · exact h.length
  · exact h.firsts
  · rw [receiver_eq h.eof, hreceived]
    simpa using hfirsts
  · intro n
    have heof : .eof ∉ d.tokens.take n := fun hmem => h.eof (List.mem_of_mem_take hmem)
    have hsome := length_tokens heof
    have hless := List.length_take_le n d.tokens
    have hle : (d.tokens.take n).length ≤ d.tokens.length := by
      rw [List.length_take]
      omega
    dsimp only
    rw [receive_counts _ _ heof]
    dsimp only
    omega
  · dsimp only
    rw [receiver_eq h.eof, hreceived]
    dsimp only
    omega

/-- With no bit set, the first request is for the whole first chunk. -/
theorem cacheAll_aborts (hd : disksize ≤ offMax) (hmax : blocksAtOnce < 2 ^ 64)
    (hblocks : 2 ^ 20 ≤ blocksAtOnce) (hsize : 2 ^ 32 ≤ disksize) (fuel : Nat) (d : Done) :
    cacheAllBlocksAsync (fun _ _ => false) disksize blocksAtOnce fuel ≠ .left d := by
  cases fuel with
  | zero => simp [cacheAllBlocksAsync, chunks]
  | succ fuel =>
    have hmany : 2 ^ 20 ≤ getDiskNblocks disksize := by
      unfold getDiskNblocks cblocksize
      omega
    have hindex : (0 + blocksAtOnce) % 2 ^ 64 = blocksAtOnce := by
      rw [Nat.zero_add]
      exact Nat.mod_eq_of_lt hmax
    generalize hlast : min blocksAtOnce (getDiskNblocks disksize) = afterLastMax
    obtain ⟨j, ⟨-, hle, -, hother⟩, hscan⟩ :=
      scan_eq (fun _ _ => false) false (afterLastMax - 0) 0 ⟨[], [], [], []⟩
    have hj : j = afterLastMax := by
      by_contra hne
      exact hother (by omega) rfl
    have hlong : ¬ runLength disksize 0 afterLastMax < 2 ^ 32 := by
      unfold runLength cblocksize
      omega
    obtain ⟨e, hchunk⟩ : ∃ e, chunk (fun _ _ => false) disksize afterLastMax (fuel + 1) 0
        ⟨[], [], [], []⟩ = .aborted e := by
      rw [chunk, if_pos (by omega)]
      simp only [hscan, hj]
      rw [request_eq hd (by omega) (by omega), if_neg hlong]
      exact ⟨_, rfl⟩
    rw [cacheAllBlocksAsync, chunks, if_pos (by omega), hindex, hlast, hchunk]
    simp

theorem cache_all_covers_iff (disksize blocksAtOnce : Nat) (hd : disksize ≤ offMax)
    (hone : 1 ≤ blocksAtOnce) (hmax : blocksAtOnce < 2 ^ 64) :
    (∀ bits, Growing bits → ∀ fuel, getDiskNblocks disksize < fuel →
      ∃ d, cacheAllBlocksAsync bits disksize blocksAtOnce fuel = .left d ∧
        Covers bits disksize blocksAtOnce d) ↔
      blocksAtOnce < 2 ^ 20 ∨ disksize < 2 ^ 32 := by
  constructor
  · intro h
    by_contra hbig
    obtain ⟨d, hleft, -⟩ := h (fun _ _ => false) (fun _ _ _ _ hb => hb) _ (Nat.lt_succ_self _)
    exact cacheAll_aborts hd hmax (by omega) (by omega) _ d hleft
  · intro hsmall bits hgrow fuel hfuel
    obtain ⟨d, hleft, hupto, -⟩ := cacheAll_left hgrow hd (.inr hsmall) hone hmax hfuel
    exact ⟨d, hleft, hupto.covers⟩

/-- A disk of two blocks and a half, two blocks at a time, while the proxy caches the
second block. -/
theorem cache_all_covers_small :
    ∃ d, cacheAllBlocksAsync (fun n i => decide (i = 1 ∧ 2 ≤ n)) 10240 2 4 = .left d ∧
      Covers (fun n i => decide (i = 1 ∧ 2 ≤ n)) 10240 2 d :=
  (cache_all_covers_iff 10240 2 (by decide) (by decide) (by decide)).mpr (.inl (by decide)) _
    (by intro m n i hmn hb; simp only [decide_eq_true_eq] at hb ⊢; omega) 4 (by decide)

/-- A disk of 4 GiB with nothing cached, asked for at once. -/
theorem cache_all_too_long :
    ¬ ∃ fuel d, cacheAllBlocksAsync (fun _ _ => false) (2 ^ 32) (2 ^ 20) fuel = .left d := by
  rintro ⟨fuel, d, hleft⟩
  exact cacheAll_aborts (by decide) (by decide) (by decide) (by decide) fuel d hleft

/-- Every test reads a word of the bitmap that `bitmap_open_file` has mapped. -/
def TestsInside (disksize : Nat) (d : Done) : Prop :=
  ∀ t ∈ d.tests, t.1 / 64 < bitsToLongs (getDiskNblocks disksize)

theorem testsInside_of_mod (h : getDiskNblocks disksize % 64 ≠ 0)
    (htests : TestsUpto (getDiskNblocks disksize) d) : TestsInside disksize d := by
  intro t ht
  have hle := htests t ht
  unfold bitsToLongs
  omega

/-- Where the number of blocks fills the last word, the block behind the disk is in a word
of its own. -/
theorem not_testsInside {b : Bool} (h : getDiskNblocks disksize % 64 = 0)
    (ht : (getDiskNblocks disksize, b) ∈ d.tests) : ¬ TestsInside disksize d := by
  intro hinside
  have hlt := hinside _ ht
  unfold bitsToLongs at hlt
  dsimp only at hlt
  omega

theorem cache_all_inside_iff (disksize blocksAtOnce : Nat) (hpos : 1 ≤ disksize)
    (hd : disksize ≤ offMax) (hone : 1 ≤ blocksAtOnce) (hmax : blocksAtOnce < 2 ^ 64) :
    ((∀ bits, Growing bits → ∀ fuel,
        TestsInside disksize (cacheAllBlocksAsync bits disksize blocksAtOnce fuel).done) ↔
      getDiskNblocks disksize % 64 ≠ 0) ∧
    ∀ bits, Growing bits → Sendable bits disksize blocksAtOnce →
      ∀ fuel, getDiskNblocks disksize < fuel →
        (TestsInside disksize (cacheAllBlocksAsync bits disksize blocksAtOnce fuel).done ↔
          getDiskNblocks disksize % 64 ≠ 0) := by
  have hinside : getDiskNblocks disksize % 64 ≠ 0 → ∀ bits fuel,
      TestsInside disksize (cacheAllBlocksAsync bits disksize blocksAtOnce fuel).done := by
    intro hmod bits fuel
    exact testsInside_of_mod hmod (chunks_testsUpto bits blocksAtOnce fuel fuel 0 _ (by simp [TestsUpto]))
  have houtside : ∀ bits, Growing bits → Sendable bits disksize blocksAtOnce →
      ∀ fuel, getDiskNblocks disksize < fuel →
        TestsInside disksize (cacheAllBlocksAsync bits disksize blocksAtOnce fuel).done →
          getDiskNblocks disksize % 64 ≠ 0 := by
    intro bits hgrow hsend fuel hfuel htests hmod
    obtain ⟨d, hleft, -, htested⟩ := cacheAll_left hgrow hd hsend hone hmax hfuel
    obtain ⟨b, hb⟩ := htested (getDiskNblocks_pos hpos)
    rw [hleft] at htests
    exact not_testsInside hmod hb htests
  constructor
  · constructor
    · intro h
      -- a bitmap with every bit set, for which nothing is ever sent
      have hgrow : Growing fun _ _ => true := fun _ _ _ _ hb => hb
      exact houtside (fun _ _ => true) hgrow (.inl fun _ _ => rfl) _ (Nat.lt_succ_self _) (h _ hgrow _)
    · intro hmod bits _ fuel
      exact hinside hmod bits fuel
  · intro bits hgrow hsend fuel hfuel
    exact ⟨houtside bits hgrow hsend fuel hfuel, fun hmod => hinside hmod bits fuel⟩

/-- The bitmap of a disk of three blocks has one word. -/
theorem cache_all_inside_small :
    getDiskNblocks 12288 = 3 ∧ TestsInside 12288 (cacheAllBlocksAsync (fun _ _ => false) 12288 2 4).done :=
  ⟨by decide, ((cache_all_inside_iff 12288 2 (by decide) (by decide) (by decide) (by decide)).2
    (fun _ _ => false) (fun _ _ _ _ hb => hb) (.inr (.inl (by decide))) 4 (by decide)).mpr (by decide)⟩

/-- A disk of 64 blocks with nothing cached. The bitmap is one word, and the second word is read. -/
theorem cache_all_reads_behind :
    bitsToLongs (getDiskNblocks 262144) = 1 ∧
    (64, false) ∈ (cacheAllBlocksAsync (fun _ _ => false) 262144 31 4).done.tests ∧
    ¬ TestsInside 262144 (cacheAllBlocksAsync (fun _ _ => false) 262144 31 4).done := by
  have htest : (64, false) ∈ (cacheAllBlocksAsync (fun _ _ => false) 262144 31 4).done.tests := by
    decide +kernel
  exact ⟨by decide, htest, not_testsInside (by decide) htest⟩

end Results

end Xnbd.CacheAll
