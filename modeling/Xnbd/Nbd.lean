import Mathlib.Tactic.Ring
import Xnbd.Block

/-!
# Request admission (`lib/nbd.c`, `lib/nbd.h`)

The header is the packed big-endian structure of the wire. The range test is
done in `uint64_t` on a 64-bit offset and a 32-bit length that the client
chose, and the offset is then converted to `off_t`.
-/
namespace Xnbd.Nbd

open CInt Block

/-- Value of a big-endian byte string. -/
def decodeBE (bytes : List UInt8) : Nat := bytes.foldl (fun n b => 256 * n + b.toNat) 0

theorem foldl_decodeBE_lt (bytes : List UInt8) (acc : Nat) :
    bytes.foldl (fun n b => 256 * n + b.toNat) acc < (acc + 1) * 256 ^ bytes.length := by
  induction bytes generalizing acc with
  | nil => simp
  | cons b rest ih =>
    have hb : b.toNat < 256 := b.toNat_lt
    have h := ih (256 * acc + b.toNat)
    have hle : (256 * acc + b.toNat + 1) * 256 ^ rest.length ≤
        (256 * (acc + 1)) * 256 ^ rest.length := Nat.mul_le_mul_right _ (by omega)
    simp only [List.foldl_cons, List.length_cons, Nat.pow_succ]
    calc rest.foldl (fun n b => 256 * n + b.toNat) (256 * acc + b.toNat)
        < (256 * acc + b.toNat + 1) * 256 ^ rest.length := h
      _ ≤ (256 * (acc + 1)) * 256 ^ rest.length := hle
      _ = (acc + 1) * (256 ^ rest.length * 256) := by ring

theorem decodeBE_lt (bytes : List UInt8) : decodeBE bytes < 256 ^ bytes.length := by
  simpa [decodeBE] using foldl_decodeBE_lt bytes 0

def nbdRequestMagic : Nat := 0x25609513
def nbdReplyMagic : Nat := 0x67446698

/-- `EINVAL`, the error code of a rejected request. -/
def einval : Nat := 22

/-- The command codes; a client may send any 32-bit value. -/
inductive Iotype where
  | read | write | disc | flush | trim | cache | readCompress | readCompressLzo | undefined
  | unknown (code : Nat)
  deriving DecidableEq, Repr

def Iotype.ofCode : Nat → Iotype
  | 0 => .read
  | 1 => .write
  | 2 => .disc
  | 3 => .flush
  | 4 => .trim
  | 5 => .cache
  | 6 => .readCompress
  | 7 => .readCompressLzo
  | 8 => .undefined
  | code => .unknown code

/-- `struct nbd_request` after byte-order conversion. -/
structure NbdRequest where
  magic : Nat
  type : Nat
  handle : Nat
  iofrom : Nat
  len : Nat
  deriving DecidableEq, Repr

/-- `sizeof(struct nbd_request)`, a packed structure. -/
def sizeofNbdRequest : Nat := 28

def NbdRequest.ofBytes (bytes : List UInt8) : NbdRequest where
  magic := decodeBE (bytes.take 4)
  type := decodeBE ((bytes.drop 4).take 4)
  handle := decodeBE ((bytes.drop 8).take 8)
  iofrom := decodeBE ((bytes.drop 16).take 8)
  len := decodeBE ((bytes.drop 24).take 4)

/-- The outcomes of `nbd_server_recv_request`, with what it stored through its
pointer arguments. -/
inductive RecvResult where
  | ok (iotype : Iotype) (iofrom : Int) (iolen : Nat) (handle : Nat)
  | badRequest (error handle : Nat)
  | magicMismatch
  | terminate
  deriving DecidableEq, Repr

/-- `header` is what `net_recv_all_or_error` delivered; a short delivery is a
closed or broken connection. -/
def nbdServerRecvRequest (disksize : Nat) (header : List UInt8) : RecvResult :=
  if header.length < sizeofNbdRequest then .terminate
  else
    let request := NbdRequest.ofBytes header
    let iotype := Iotype.ofCode request.type
    if request.magic ≠ nbdRequestMagic then .magicMismatch
    else if iotype = .disc then .terminate
    else if iotype = .flush ∧ ¬(request.iofrom = 0 ∧ request.len = 0) then
      .badRequest einval request.handle
    else if (request.iofrom + request.len) % 2 ^ 64 > disksize then
      .badRequest einval request.handle
    else .ok iotype (toInt64 request.iofrom) request.len request.handle

theorem ofBytes_iofrom_lt (header : List UInt8) : (NbdRequest.ofBytes header).iofrom < 2 ^ 64 := by
  refine Nat.lt_of_lt_of_le (decodeBE_lt _) ?_
  have hlen : ((header.drop 16).take 8).length ≤ 8 := List.length_take_le 8 _
  exact Nat.le_trans (Nat.pow_le_pow_right (by decide) hlen) (by decide)

theorem ofBytes_len_lt (header : List UInt8) : (NbdRequest.ofBytes header).len < 2 ^ 32 := by
  refine Nat.lt_of_lt_of_le (decodeBE_lt _) ?_
  have hlen : ((header.drop 24).take 4).length ≤ 4 := List.length_take_le 4 _
  exact Nat.le_trans (Nat.pow_le_pow_right (by decide) hlen) (by decide)

/-- What the admission test establishes about the values it hands on. -/
structure Admitted (disksize : Nat) (iotype : Iotype) (iofrom : Int) (iolen : Nat) : Prop where
  lower : -2 ^ 63 ≤ iofrom
  upper : iofrom < 2 ^ 63
  length : iolen < 2 ^ 32
  within : (iofrom + iolen) % 2 ^ 64 ≤ disksize
  flush : iotype = .flush → iofrom = 0 ∧ iolen = 0
  not_disc : iotype ≠ .disc

/-- An accepted header is a complete one with the right magic, and its values
are those of the header. -/
theorem nbdServerRecvRequest_ok {disksize : Nat} {header : List UInt8} {iotype : Iotype}
    {iofrom : Int} {iolen handle : Nat}
    (h : nbdServerRecvRequest disksize header = .ok iotype iofrom iolen handle) :
    sizeofNbdRequest ≤ header.length ∧ (NbdRequest.ofBytes header).magic = nbdRequestMagic ∧
      iotype = Iotype.ofCode (NbdRequest.ofBytes header).type ∧
      iofrom = toInt64 (NbdRequest.ofBytes header).iofrom ∧
      iolen = (NbdRequest.ofBytes header).len ∧ Admitted disksize iotype iofrom iolen := by
  simp only [nbdServerRecvRequest] at h
  split at h
  · cases h
  split at h
  · cases h
  split at h
  · cases h
  split at h
  · cases h
  split at h
  · cases h
  rename_i hlen hmagic hdisc hflush hrange
  cases h
  refine ⟨by omega, not_not.mp hmagic, rfl, rfl, rfl, (toInt64_range _).1, (toInt64_range _).2,
    ofBytes_len_lt header, ?_, ?_, hdisc⟩
  · rw [toInt64_add_emod]
    omega
  · intro hf
    have hz := not_not.mp fun hn => hflush ⟨hf, hn⟩
    simp only [hz]
    decide

/-- A header that passes the test although its range ends past the disk: offset
and length add up to a small value only after the wrap of `uint64_t`. -/
structure Wraps (disksize : Nat) (request : NbdRequest) : Prop where
  magic : request.magic = nbdRequestMagic
  not_disc : Iotype.ofCode request.type ≠ .disc
  not_flush : Iotype.ofCode request.type ≠ .flush
  lower : 2 ^ 64 ≤ request.iofrom + request.len
  upper : request.iofrom + request.len ≤ 2 ^ 64 + disksize

/-- Admission promises a range inside the disk exactly for the headers whose
offset and length do not wrap around to a value the disk size allows. -/
theorem nbdServerRecvRequest_in_range_iff (disksize : Nat) (hd : disksize ≤ offMax)
    (header : List UInt8) (hlen : header.length = sizeofNbdRequest) :
    (∀ iotype iofrom iolen handle,
        nbdServerRecvRequest disksize header = .ok iotype iofrom iolen handle →
        0 ≤ iofrom ∧ iofrom + iolen ≤ disksize) ↔
      ¬Wraps disksize (NbdRequest.ofBytes header) := by
  have hfrom := ofBytes_iofrom_lt header
  have hl := ofBytes_len_lt header
  unfold offMax at hd
  constructor
  · intro hall hw
    have hflush : ¬(Iotype.ofCode (NbdRequest.ofBytes header).type = .flush ∧
        ¬((NbdRequest.ofBytes header).iofrom = 0 ∧ (NbdRequest.ofBytes header).len = 0)) :=
      fun h => hw.not_flush h.1
    have hsum : ¬((NbdRequest.ofBytes header).iofrom + (NbdRequest.ofBytes header).len) % 2 ^ 64 >
        disksize := by
      have h0 := hw.lower
      have h1 := hw.upper
      omega
    have hok : nbdServerRecvRequest disksize header =
        .ok (Iotype.ofCode (NbdRequest.ofBytes header).type)
          (toInt64 (NbdRequest.ofBytes header).iofrom) (NbdRequest.ofBytes header).len
          (NbdRequest.ofBytes header).handle := by
      simp only [nbdServerRecvRequest, hlen, lt_irrefl, if_false, hw.magic, ne_eq,
        not_true_eq_false, hw.not_disc, hflush, hsum]
    have hneg := (hall _ _ _ _ hok).1
    have h0 := hw.lower
    unfold toInt64 at hneg
    omega
  · intro hw iotype iofrom iolen handle hok
    obtain ⟨-, hmagic, htype, hif, hil, hadm⟩ := nbdServerRecvRequest_ok hok
    have hwithin := hadm.within
    rw [hif, hil, toInt64_add_emod] at hwithin
    have hno : (NbdRequest.ofBytes header).iofrom + (NbdRequest.ofBytes header).len < 2 ^ 64 := by
      by_contra hge
      by_cases hf : iotype = .flush
      · have hz := hadm.flush hf
        rw [hif, hil] at hz
        unfold toInt64 at hz
        omega
      · exact hw ⟨hmagic, htype ▸ hadm.not_disc, htype ▸ hf, by omega, by omega⟩
    have hsmall : (NbdRequest.ofBytes header).iofrom < 2 ^ 63 := by omega
    rw [hif, hil, toInt64_of_range (by omega) (by omega)]
    constructor <;> omega

/-- A READ header of one byte at the given offset bytes. -/
def readHeader (iofrom : List UInt8) : List UInt8 :=
  [0x25, 0x60, 0x95, 0x13] ++ [0, 0, 0, 0] ++ [0, 0, 0, 0, 0, 0, 0, 0] ++ iofrom ++ [0, 0, 0, 1]

theorem nbdServerRecvRequest_in_range_first_byte :
    ¬Wraps 4096 (NbdRequest.ofBytes (readHeader [0, 0, 0, 0, 0, 0, 0, 0])) ∧
      ∀ iotype iofrom iolen handle,
        nbdServerRecvRequest 4096 (readHeader [0, 0, 0, 0, 0, 0, 0, 0]) =
          .ok iotype iofrom iolen handle → 0 ≤ iofrom ∧ iofrom + iolen ≤ (4096 : Nat) := by
  have hw : ¬Wraps 4096 (NbdRequest.ofBytes (readHeader [0, 0, 0, 0, 0, 0, 0, 0])) :=
    fun h => absurd h.lower (by decide)
  exact ⟨hw, (nbdServerRecvRequest_in_range_iff 4096 (by decide) _ rfl).mpr hw⟩

/-- Offset 2^64 - 1 and length 1: the sum is zero, and the request is handed on
with offset -1. -/
theorem nbdServerRecvRequest_admits_negative :
    ¬∀ iotype iofrom iolen handle,
      nbdServerRecvRequest 4096 (readHeader [255, 255, 255, 255, 255, 255, 255, 255]) =
        .ok iotype iofrom iolen handle → 0 ≤ iofrom ∧ iofrom + iolen ≤ (4096 : Nat) := by
  intro h
  have hok : nbdServerRecvRequest 4096 (readHeader [255, 255, 255, 255, 255, 255, 255, 255]) =
      .ok .read (-1) 1 0 := by decide
  exact absurd (h _ _ _ _ hok).1 (by decide)

end Xnbd.Nbd
