import Xnbd.CText
import Xnbd.Dialogue
import Xnbd.TargetRead

/-!
# The wire formats (`lib/nbd.c`)

What the client side writes and the server side reads, and the other way round:
request and reply headers, and the two versions of the negotiation. Every number
goes over the wire in big-endian order, in the packed structures of the source.
-/
namespace Xnbd.Negotiate

open CInt Block Nbd TargetRead Dialogue
open CText (cString)

section Numbers

theorem decodeBE_append_singleton (bytes : List UInt8) (b : UInt8) :
    decodeBE (bytes ++ [b]) = 256 * decodeBE bytes + b.toNat := by
  simp [decodeBE, List.foldl_append]

theorem decodeBE_encodeBE (width : Nat) {n : Nat} (h : n < 256 ^ width) :
    decodeBE (encodeBE width n) = n := by
  induction width generalizing n with
  | zero =>
    rw [Nat.pow_zero] at h
    have hn : n = 0 := by omega
    rw [hn]
    rfl
  | succ width ih =>
    have hdiv : n / 256 < 256 ^ width := by
      rw [Nat.div_lt_iff_lt_mul (by decide), ← Nat.pow_succ]
      exact h
    have hlow : (UInt8.ofNat (n % 256)).toNat = n % 256 := by
      rw [UInt8.toNat_ofNat']
      exact Nat.mod_eq_of_lt (Nat.mod_lt n (by decide))
    rw [encodeBE, decodeBE_append_singleton, ih hdiv, hlow]
    omega

@[simp] theorem take_encodeBE {width k : Nat} (h : width ≤ k) (n : Nat) :
    (encodeBE width n).take k = encodeBE width n := by
  rw [List.take_of_length_le]
  simpa using h

@[simp] theorem drop_encodeBE {width k : Nat} (h : width ≤ k) (n : Nat) :
    (encodeBE width n).drop k = [] := by
  rw [List.drop_of_length_le]
  simpa using h

end Numbers

section Headers

/-- `EPIPE`, what the client side returns for a reply it cannot use. -/
def epipe : Int := 32

/-- The value that goes over the wire. -/
def iotypeCode : Iotype → Nat
  | .read => 0
  | .write => 1
  | .disc => 2
  | .flush => 3
  | .trim => 4
  | .cache => 5
  | .readCompress => 6
  | .readCompressLzo => 7
  | .undefined => 8
  | .unknown code => code

theorem iotypeCode_ofCode (code : Nat) : iotypeCode (Iotype.ofCode code) = code := by
  simp only [Iotype.ofCode]
  split <;> rfl

/-- `struct nbd_request` in wire order. -/
def requestBytes (iotype : Nat) (iofrom len handle : Nat) : List UInt8 :=
  encodeBE 4 nbdRequestMagic ++ (encodeBE 4 iotype ++ (encodeBE 8 handle ++
    (encodeBE 8 iofrom ++ encodeBE 4 len)))

/-- The bytes that `nbd_client_send_request_header` sends; `none` when one of its
assertions fails. The sum of an `off_t` and a `size_t` is unsigned. -/
def nbdClientSendRequestHeader (iotype : Nat) (iofrom : Int) (len handle : Nat) :
    Option (List UInt8) :=
  if len ≤ 2 ^ 32 - 1 ∧ toUint64 (iofrom + len) ≤ offMax ∧ 0 ≤ iofrom then
    some (requestBytes iotype (toUint64 iofrom) len handle)
  else none

/-- `myhandle`, the handle of every request to the remote server. -/
def myhandle : Nat := 2 ^ 64 - 1

/-- `nbd_client_recv_reply_header` on what was received. The handle is compared as
it lies in memory, which is the same as comparing the values. -/
def nbdClientRecvReplyHeader (handle : Nat) (got : List UInt8) : Int :=
  if got.length < sizeofNbdReply then -epipe
  else if decodeBE (got.take 4) ≠ nbdReplyMagic then -epipe
  else if decodeBE ((got.drop 8).take 8) ≠ handle then -epipe
  else
    let error := decodeBE ((got.drop 4).take 4)
    if error ≠ 0 then toInt32 (-error) else 0

theorem ofBytes_requestBytes {iotype iofrom len handle : Nat} (htype : iotype < 2 ^ 32)
    (hfrom : iofrom < 2 ^ 64) (hlen : len < 2 ^ 32) (hhandle : handle < 2 ^ 64) :
    NbdRequest.ofBytes (requestBytes iotype iofrom len handle) =
      ⟨nbdRequestMagic, iotype, handle, iofrom, len⟩ := by
  have hmagic : nbdRequestMagic < 256 ^ 4 := by decide
  simp only [NbdRequest.ofBytes, requestBytes, List.take_append, List.drop_append]
  simp [decodeBE_encodeBE 4 hmagic, decodeBE_encodeBE 4 htype, decodeBE_encodeBE 8 hhandle,
    decodeBE_encodeBE 8 hfrom, decodeBE_encodeBE 4 hlen]

/-- A request that the client side may send is admitted as it was meant. -/
theorem nbdServerRecvRequest_sent {disksize iotype len handle : Nat} {iofrom : Int}
    {bytes : List UInt8} (htype : iotype < 2 ^ 32) (hoff : iofrom < 2 ^ 63)
    (hhandle : handle < 2 ^ 64) (hdisc : iotype ≠ 2)
    (hflush : iotype = 3 → iofrom = 0 ∧ len = 0) (hdisk : iofrom + len ≤ disksize)
    (h : nbdClientSendRequestHeader iotype iofrom len handle = some bytes) :
    nbdServerRecvRequest disksize bytes = .ok (Iotype.ofCode iotype) iofrom len handle := by
  simp only [nbdClientSendRequestHeader] at h
  split at h
  · rename_i hassert
    cases h
    obtain ⟨hlen, hsum, hpos⟩ := hassert
    have hfrom : toUint64 iofrom = iofrom.toNat := toUint64_of_range hpos (by omega)
    have hbytes := ofBytes_requestBytes htype (show toUint64 iofrom < 2 ^ 64 by omega)
      (show len < 2 ^ 32 by omega) hhandle
    have hsize : ¬(requestBytes iotype (toUint64 iofrom) len handle).length < sizeofNbdRequest := by
      simp [requestBytes, sizeofNbdRequest]
    have hnotDisc : Iotype.ofCode iotype ≠ .disc := by
      intro he
      exact hdisc (iotypeCode_ofCode iotype ▸ congrArg iotypeCode he)
    have hnotFlush : ¬(Iotype.ofCode iotype = .flush ∧ ¬(toUint64 iofrom = 0 ∧ len = 0)) := by
      rintro ⟨he, hne⟩
      have hcode : iotype = 3 := iotypeCode_ofCode iotype ▸ congrArg iotypeCode he
      have hz := hflush hcode
      exact hne ⟨by omega, hz.2⟩
    have hwithin : ¬(toUint64 iofrom + len) % 2 ^ 64 > disksize := by omega
    have hback : toInt64 (toUint64 iofrom) = iofrom := by
      rw [hfrom, Int.toNat_of_nonneg hpos]
      exact toInt64_of_range (by omega) hoff
    simp only [nbdServerRecvRequest, hbytes, hsize, hnotDisc, hnotFlush, hwithin, hback, if_false,
      ne_eq, not_true_eq_false]
  · cases h

/-- The reply to a request is taken for the handle of the request and for no other. -/
theorem nbdClientRecvReplyHeader_reply {handle : Nat} (hhandle : handle < 2 ^ 64) (other : Nat) :
    nbdClientRecvReplyHeader other (replyBytes 0 handle) = if other = handle then 0 else -epipe := by
  have hmagic : nbdReplyMagic < 256 ^ 4 := by decide
  have hzero : (0 : Nat) < 256 ^ 4 := by decide
  simp only [nbdClientRecvReplyHeader, replyBytes, List.take_append,
    List.drop_append]
  simp [decodeBE_encodeBE 4 hmagic, decodeBE_encodeBE 8 hhandle, decodeBE_encodeBE 4 hzero,
    sizeofNbdReply, eq_comm]

end Headers

section Negotiation

def nbdPasswd : Nat := 0x4e42444d41474943
def version1Magic : Nat := 0x0000420281861253
def version2Magic : Nat := 0x49484156454F5054
def optExportName : Nat := 1
def exportNameMaxlen : Nat := 256

def nbdFlagHasFlags : Nat := 1
def nbdFlagReadOnly : Nat := 2
def nbdFlagSendFlush : Nat := 4

/-- The flags of an export, which both versions compute in the same way. -/
def exportFlags (readonly : Bool) : Nat :=
  let flags := nbdFlagHasFlags ||| nbdFlagSendFlush
  if readonly then flags ||| nbdFlagReadOnly else flags

/-- What a client learns about the disk. -/
structure Export where
  exportsize : Nat
  exportflags : Nat
  deriving DecidableEq

/-- The padding of the last PDU of both versions. -/
def padding : List UInt8 := List.replicate 124 0

/-- The first 128 bits, which the PDUs of both versions share. -/
def greeting (magic : Nat) : List UInt8 := encodeBE 8 nbdPasswd ++ encodeBE 8 magic

/-- What both versions say about the export; the flags have their own width in each. -/
def exportBytes (width exportsize flags : Nat) : List UInt8 :=
  encodeBE 8 exportsize ++ (encodeBE width flags ++ padding)

/-- `struct nbd_negotiate_v1_pdu`. -/
def v1Pdu (exportsize flags : Nat) : List UInt8 :=
  greeting version1Magic ++ exportBytes 4 exportsize flags

/-- `nbd_negotiate_v1_server_side_main`. The assertion on the size is its type. -/
def nbdNegotiateV1ServerSideMain (exportsize : Nat) (readonly : Bool) : Party UInt8 Int :=
  .send (v1Pdu exportsize (exportFlags readonly)) fun ok => .ret (if ok then 0 else -1)

/-- `none` stands for the return value -1. -/
def nbdNegotiateV1ClientSide : Party UInt8 (Option Export) :=
  .recv 16 fun head =>
    if head.length < 16 then .ret none
    else if decodeBE (head.take 8) ≠ nbdPasswd then .ret none
    else if decodeBE (head.drop 8) = version2Magic then .ret none
    else if decodeBE (head.drop 8) ≠ version1Magic then .ret none
    else .recv 136 fun tail =>
      if tail.length < 136 then .ret none
      else if decodeBE (tail.take 8) > offMax then .ret none
      else .ret (some ⟨decodeBE (tail.take 8), decodeBE ((tail.drop 8).take 4)⟩)

/-- `struct nbd_negotiate_v2_pdu_type0`. -/
def v2Pdu0 : List UInt8 := greeting version2Magic ++ encodeBE 2 0

/-- `struct nbd_negotiate_v2_pdu_type1`. -/
def v2Pdu1 (namesize : Nat) : List UInt8 :=
  encodeBE 4 0 ++ (encodeBE 8 version2Magic ++ (encodeBE 4 optExportName ++ encodeBE 4 namesize))

/-- `struct nbd_negotiate_v2_pdu_type2`. -/
def v2Pdu2 (exportsize flags : Nat) : List UInt8 := exportBytes 2 exportsize flags

/-- The buffer with the name, or `none` for NULL. The PDU lies on the stack and is
looked at even when the receive fell short, so what the stack held before counts. -/
def nbdNegotiateV2ServerPhase0 (stack : List UInt8) : Party UInt8 (Option (List UInt8)) :=
  .send v2Pdu0 fun ok =>
    if ok = false then .ret none
    else .recv 20 fun got =>
      let pdu1 := got ++ stack.drop got.length
      let namesize := decodeBE ((pdu1.drop 16).take 4)
      if decodeBE ((pdu1.drop 4).take 8) ≠ version2Magic ∨
          decodeBE ((pdu1.drop 12).take 4) ≠ optExportName then .ret none
      else if namesize > exportNameMaxlen then .ret none
      else .recv namesize fun name =>
        if name.length < namesize then .ret none else .ret (some (name ++ [0]))

def nbdNegotiateV2ServerPhase1 (exportsize : Nat) (readonly : Bool) : Party UInt8 Int :=
  .send (v2Pdu2 exportsize (exportFlags readonly)) fun ok => .ret (if ok then 0 else -1)

/-- The server side of both phases, as the wrapper runs them: the buffer and what
the second phase returned. -/
def v2Server (stack : List UInt8) (exportsize : Nat) (readonly : Bool) :
    Party UInt8 (Option (List UInt8 × Int)) :=
  (nbdNegotiateV2ServerPhase0 stack).bind fun buffer =>
    match buffer with
    | none => .ret none
    | some name =>
      (nbdNegotiateV2ServerPhase1 exportsize readonly).bind fun ret => .ret (some (name, ret))

def nbdNegotiateV2ClientSide (targetName : List UInt8) : Party UInt8 (Option Export) :=
  .recv 18 fun pdu0 =>
    if pdu0.length < 18 then .ret none
    else if decodeBE (pdu0.take 8) ≠ nbdPasswd then .ret none
    else if decodeBE ((pdu0.drop 8).take 8) = version1Magic then .ret none
    else if decodeBE ((pdu0.drop 8).take 8) ≠ version2Magic then .ret none
    else .send (v2Pdu1 targetName.length) fun ok =>
      if ok = false then .ret none
      else .send targetName fun ok =>
        if ok = false then .ret none
        else .recv 134 fun pdu2 =>
          if pdu2.length < 134 then .ret none
          else if decodeBE (pdu2.take 8) > offMax then .ret none
          else .ret (some ⟨decodeBE (pdu2.take 8), decodeBE ((pdu2.drop 8).take 2)⟩)

theorem cString_terminated {name : List UInt8} (h : 0 ∉ name) : cString (name ++ [0]) = name := by
  induction name with
  | nil => rfl
  | cons b name ih =>
    rw [List.mem_cons, not_or] at h
    have hb : b ≠ 0 := fun he => h.1 he.symm
    have hrest := ih h.2
    simp only [cString] at hrest ⊢
    rw [List.cons_append, List.takeWhile_cons_of_pos (by simpa using hb), hrest]

section Fields

variable {magic exportsize : Nat}

@[simp] theorem greeting_length (magic : Nat) : (greeting magic).length = 16 := by
  simp [greeting]

theorem greeting_passwd (magic : Nat) (rest : List UInt8) :
    decodeBE ((greeting magic ++ rest).take 8) = nbdPasswd := by
  have h : nbdPasswd < 256 ^ 8 := by decide
  simp [greeting, decodeBE_encodeBE 8 h]

theorem greeting_magic (h : magic < 256 ^ 8) (rest : List UInt8) :
    decodeBE (((greeting magic ++ rest).drop 8).take 8) = magic := by
  simp [greeting, decodeBE_encodeBE 8 h]

/-- The version 1 client reads the greeting by itself. -/
theorem greeting_alone (h : magic < 256 ^ 8) :
    decodeBE ((greeting magic).take 8) = nbdPasswd ∧ decodeBE ((greeting magic).drop 8) = magic := by
  have hpasswd := greeting_passwd magic []
  have hmagic := greeting_magic h []
  rw [List.append_nil] at hpasswd hmagic
  rw [List.take_of_length_le (by simp)] at hmagic
  exact ⟨hpasswd, hmagic⟩

theorem version1_lt : version1Magic < 256 ^ 8 := by decide

theorem version2_lt : version2Magic < 256 ^ 8 := by decide

theorem versions_differ : version1Magic ≠ version2Magic := by decide

theorem exportFlags_lt (readonly : Bool) : exportFlags readonly < 256 ^ 2 := by
  cases readonly <;> decide

theorem exportBytes_length (width exportsize flags : Nat) :
    (exportBytes width exportsize flags).length = width + 132 := by
  simp only [exportBytes, padding, List.length_append, encodeBE_length, List.length_replicate]
  omega

theorem exportBytes_size (h : exportsize ≤ offMax) (width flags : Nat) :
    decodeBE ((exportBytes width exportsize flags).take 8) = exportsize := by
  have hlt : exportsize < 256 ^ 8 := Nat.lt_of_le_of_lt h (by decide)
  simp [exportBytes, decodeBE_encodeBE 8 hlt]

theorem exportBytes_flags {width flags : Nat} (h : flags < 256 ^ width) (exportsize : Nat) :
    decodeBE (((exportBytes width exportsize flags).drop 8).take width) = flags := by
  simp [exportBytes, decodeBE_encodeBE width h]

theorem v2Pdu1_length (namesize : Nat) : (v2Pdu1 namesize).length = 20 := by
  simp [v2Pdu1]

theorem v2Pdu1_fields {namesize : Nat} (hsize : namesize < 256 ^ 4) (rest : List UInt8) :
    decodeBE (((v2Pdu1 namesize ++ rest).drop 4).take 8) = version2Magic ∧
      decodeBE (((v2Pdu1 namesize ++ rest).drop 12).take 4) = optExportName ∧
      decodeBE (((v2Pdu1 namesize ++ rest).drop 16).take 4) = namesize := by
  have hopt : optExportName < 256 ^ 4 := by decide
  simp [v2Pdu1, List.drop_append, decodeBE_encodeBE 8 version2_lt, decodeBE_encodeBE 4 hopt,
    decodeBE_encodeBE 4 hsize]

end Fields

theorem v1_reaches {exportsize : Nat} (hsize : exportsize ≤ offMax) (readonly : Bool) :
    Reaches (start (nbdNegotiateV1ServerSideMain exportsize readonly) nbdNegotiateV1ClientSide)
      (ended 0 (some ⟨exportsize, exportFlags readonly⟩)) := by
  have hflags : exportFlags readonly < 256 ^ 4 :=
    Nat.lt_trans (exportFlags_lt readonly) (by decide)
  have hlen := exportBytes_length 4 exportsize (exportFlags readonly)
  obtain ⟨hpasswd, hmagic⟩ := greeting_alone version1_lt
  apply reaches_send_left
  rw [List.nil_append, v1Pdu]
  apply reaches_recv_right (greeting_length version1Magic)
  simp only [greeting_length, hpasswd, hmagic, versions_differ, lt_irrefl, ne_eq, not_true_eq_false,
    if_false]
  apply reaches_recv_all_right hlen
  simp only [hlen, exportBytes_size hsize, exportBytes_flags hflags, not_lt.mpr hsize,
    lt_irrefl, if_false]
  exact reaches_self _

section Phases

variable {α : Type} {stack name : List UInt8} {f : Option (List UInt8) → Party UInt8 α}
  {t : Talk UInt8 α (Option Export)}

/-- The first phase behind the greeting. -/
def awaitName (stack : List UInt8) : Party UInt8 (Option (List UInt8)) :=
  .recv 20 fun got =>
    let pdu1 := got ++ stack.drop got.length
    let namesize := decodeBE ((pdu1.drop 16).take 4)
    if decodeBE ((pdu1.drop 4).take 8) ≠ version2Magic ∨
        decodeBE ((pdu1.drop 12).take 4) ≠ optExportName then .ret none
    else if namesize > exportNameMaxlen then .ret none
    else .recv namesize fun name =>
      if name.length < namesize then .ret none else .ret (some (name ++ [0]))

/-- The client behind its name. -/
def awaitExport : Party UInt8 (Option Export) :=
  .recv 134 fun pdu2 =>
    if pdu2.length < 134 then .ret none
    else if decodeBE (pdu2.take 8) > offMax then .ret none
    else .ret (some ⟨decodeBE (pdu2.take 8), decodeBE ((pdu2.drop 8).take 2)⟩)

/-- The server greets, and the client answers with the name. -/
theorem greeting_reaches (h : Reaches
    ⟨(awaitName stack).bind f, awaitExport, v2Pdu1 name.length ++ name, []⟩ t) :
    Reaches (start ((nbdNegotiateV2ServerPhase0 stack).bind f) (nbdNegotiateV2ClientSide name))
      t := by
  have hpdu0 : v2Pdu0.length = 18 := by simp [v2Pdu0]
  have hpasswd : decodeBE (v2Pdu0.take 8) = nbdPasswd := greeting_passwd _ _
  have hmagic : decodeBE ((v2Pdu0.drop 8).take 8) = version2Magic := greeting_magic version2_lt _
  apply reaches_send_left
  rw [List.nil_append]
  apply reaches_recv_all_right hpdu0
  simp only [hpdu0, hpasswd, hmagic, versions_differ.symm, lt_irrefl, ne_eq, not_true_eq_false,
    if_false]
  apply reaches_send_right
  apply reaches_send_right
  rw [List.nil_append]
  simp only [Bool.true_eq_false, if_false]
  exact h

/-- The first phase reads the name, whatever comes behind it. -/
theorem phase0_reaches (hname : name.length ≤ exportNameMaxlen)
    (h : Reaches ⟨f (some (name ++ [0])), awaitExport, [], []⟩ t) :
    Reaches (start ((nbdNegotiateV2ServerPhase0 stack).bind f) (nbdNegotiateV2ClientSide name))
      t := by
  have hpdu1 := v2Pdu1_length name.length
  obtain ⟨hopt, hexport, hnamesize⟩ := v2Pdu1_fields
    (Nat.lt_of_le_of_lt hname (by decide)) (stack.drop (v2Pdu1 name.length).length)
  apply greeting_reaches
  apply reaches_recv_left hpdu1
  simp only [hopt, hexport, hnamesize, not_lt.mpr hname, ne_eq, not_true_eq_false, or_self, if_false]
  apply reaches_recv_all_left rfl
  simp only [lt_irrefl, if_false]
  exact h

/-- A name that is too long stays on the connection. -/
theorem phase0_refuses (hname : exportNameMaxlen < name.length) (hsize : name.length < 256 ^ 4)
    (h : Reaches ⟨f none, awaitExport, name, []⟩ t) :
    Reaches (start ((nbdNegotiateV2ServerPhase0 stack).bind f) (nbdNegotiateV2ClientSide name))
      t := by
  have hpdu1 := v2Pdu1_length name.length
  obtain ⟨hopt, hexport, hnamesize⟩ :=
    v2Pdu1_fields hsize (stack.drop (v2Pdu1 name.length).length)
  apply greeting_reaches
  apply reaches_recv_left hpdu1
  simp only [hopt, hexport, hnamesize, hname, ne_eq, not_true_eq_false, or_self, if_false, if_true]
  exact h

end Phases

theorem v2_reaches {exportsize : Nat} (hsize : exportsize ≤ offMax) (readonly : Bool)
    {name : List UInt8} (hname : name.length ≤ exportNameMaxlen) (stack : List UInt8) :
    Reaches (start (v2Server stack exportsize readonly) (nbdNegotiateV2ClientSide name))
      (ended (some (name ++ [0], 0)) (some ⟨exportsize, exportFlags readonly⟩)) := by
  have hlen := exportBytes_length 2 exportsize (exportFlags readonly)
  apply phase0_reaches hname
  -- the server describes the export
  apply reaches_send_left
  rw [List.nil_append, v2Pdu2]
  apply reaches_recv_all_right hlen
  simp only [hlen, exportBytes_size hsize, exportBytes_flags (exportFlags_lt readonly),
    not_lt.mpr hsize, lt_irrefl, if_false]
  exact reaches_self _

theorem v1Client_rejects (rest : List UInt8) :
    nbdNegotiateV1ClientSide.hear (v2Pdu0 ++ rest) = none := by
  have hhead : (v2Pdu0 ++ rest).take 16 = greeting version2Magic := by
    rw [v2Pdu0, List.append_assoc]
    exact List.take_left' (greeting_length _)
  obtain ⟨hpasswd, hmagic⟩ := greeting_alone version2_lt
  simp only [nbdNegotiateV1ClientSide, Party.hear, hhead, greeting_length, hpasswd, hmagic,
    lt_irrefl, ne_eq, not_true_eq_false, if_false, if_true]

theorem v2Client_rejects (name : List UInt8) (exportsize flags : Nat) (rest : List UInt8) :
    (nbdNegotiateV2ClientSide name).hear (v1Pdu exportsize flags ++ rest) = none := by
  have hhead : (v1Pdu exportsize flags ++ rest).take 18 =
      greeting version1Magic ++ (exportBytes 4 exportsize flags ++ rest).take 2 := by
    rw [v1Pdu, List.append_assoc, List.take_append, greeting_length,
      List.take_of_length_le (by simp)]
  have hlen : (greeting version1Magic ++ (exportBytes 4 exportsize flags ++ rest).take 2).length =
      18 := by
    rw [List.length_append, List.length_take, List.length_append, exportBytes_length]
    simp only [greeting_length]
    omega
  simp only [nbdNegotiateV2ClientSide, Party.hear, hhead, hlen, greeting_passwd,
    greeting_magic version1_lt, lt_irrefl, ne_eq, not_true_eq_false, if_false, if_true]

theorem wire_round_trip :
    (∀ (disksize iotype len handle : Nat) (iofrom : Int) (bytes : List UInt8),
      iotype < 2 ^ 32 → iotype ≠ 2 → -2 ^ 63 ≤ iofrom → iofrom < 2 ^ 63 → handle < 2 ^ 64 →
      (iotype = 3 → iofrom = 0 ∧ len = 0) → iofrom + len ≤ disksize →
      nbdClientSendRequestHeader iotype iofrom len handle = some bytes →
      (∃ type, nbdServerRecvRequest disksize bytes = .ok type iofrom len handle ∧
        iotypeCode type = iotype) ∧
      nbdClientRecvReplyHeader handle (replyBytes 0 handle) = 0 ∧
      ∀ other, other ≠ handle → nbdClientRecvReplyHeader other (replyBytes 0 handle) < 0) ∧
    (∀ exportsize readonly, exportsize ≤ offMax →
      ComesTo (start (nbdNegotiateV1ServerSideMain exportsize readonly) nbdNegotiateV1ClientSide)
        (ended 0 (some ⟨exportsize, exportFlags readonly⟩))) ∧
    (∀ exportsize readonly name stack, exportsize ≤ offMax → name.length ≤ 256 → 0 ∉ name →
      ∃ buffer, cString buffer = name ∧
        ComesTo (start (v2Server stack exportsize readonly) (nbdNegotiateV2ClientSide name))
          (ended (some (buffer, 0)) (some ⟨exportsize, exportFlags readonly⟩))) ∧
    (∀ rest, nbdNegotiateV1ClientSide.hear (v2Pdu0 ++ rest) = none) ∧
    ∀ name exportsize flags rest,
      (nbdNegotiateV2ClientSide name).hear (v1Pdu exportsize flags ++ rest) = none := by
  refine ⟨?_, ?_, ?_, v1Client_rejects, v2Client_rejects⟩
  · intro disksize iotype len handle iofrom bytes htype hdisc _ hoff hhandle hflush hdisk h
    refine ⟨⟨_, nbdServerRecvRequest_sent htype hoff hhandle hdisc hflush hdisk h,
      iotypeCode_ofCode iotype⟩, ?_, ?_⟩
    · rw [nbdClientRecvReplyHeader_reply hhandle, if_pos rfl]
    · intro other hother
      rw [nbdClientRecvReplyHeader_reply hhandle, if_neg hother]
      decide
  · intro exportsize readonly hsize
    exact comesTo_of_reaches (ended_stuck _ _) (v1_reaches hsize readonly)
  · intro exportsize readonly name stack hsize hname hnul
    exact ⟨name ++ [0], cString_terminated hnul,
      comesTo_of_reaches (ended_stuck _ _) (v2_reaches hsize readonly hname stack)⟩

/-- The last bytes of the largest disk, and an export with a two-letter name. -/
theorem wire_round_trip_largest :
    nbdServerRecvRequest offMax (requestBytes 0 (2 ^ 63 - 9) 8 77) =
        .ok .read (2 ^ 63 - 9) 8 77 ∧
      (∃ type, nbdServerRecvRequest offMax (requestBytes 0 (2 ^ 63 - 9) 8 77) =
        .ok type (2 ^ 63 - 9) 8 77 ∧ iotypeCode type = 0) ∧
      ComesTo (start (nbdNegotiateV1ServerSideMain offMax true) nbdNegotiateV1ClientSide)
        (ended 0 (some ⟨offMax, exportFlags true⟩)) ∧
      ∃ buffer, cString buffer = [100, 49] ∧
        ComesTo (start (v2Server [] offMax false) (nbdNegotiateV2ClientSide [100, 49]))
          (ended (some (buffer, 0)) (some ⟨offMax, exportFlags false⟩)) :=
  ⟨by decide,
    (wire_round_trip.1 offMax 0 8 77 (2 ^ 63 - 9) _ (by decide) (by decide) (by decide) (by decide)
      (by decide) (by decide) (by decide) (by decide)).1,
    wire_round_trip.2.1 offMax true (le_refl _),
    wire_round_trip.2.2.1 offMax false [100, 49] [] (le_refl _) (by decide) (by decide)⟩

end Negotiation

section Grammar

/-- The `namesize` field of an option header. -/
def namesizeOf (header : List UInt8) : Nat := decodeBE ((header.drop 16).take 4)

/-- The header asks for an export by a name that is not too long. -/
def OptionHeader (header : List UInt8) : Prop :=
  decodeBE ((header.drop 4).take 8) = version2Magic ∧
    decodeBE ((header.drop 12).take 4) = optExportName ∧ namesizeOf header ≤ exportNameMaxlen

/-- A complete option header and all the bytes of the name. -/
def Grammatical (stream : List UInt8) : Prop :=
  20 ≤ stream.length ∧ OptionHeader stream ∧ 20 + namesizeOf stream ≤ stream.length

instance (header : List UInt8) : Decidable (OptionHeader header) :=
  inferInstanceAs (Decidable (_ ∧ _))

instance (stream : List UInt8) : Decidable (Grammatical stream) :=
  inferInstanceAs (Decidable (_ ∧ _))

/-- What a client asks for: the name up to its first NUL. -/
def requestedName (stream : List UInt8) : Option (List UInt8) :=
  if Grammatical stream then some (cString ((stream.drop 20).take (namesizeOf stream))) else none

/-- The header as it lies on the stack. -/
def completed (stack got : List UInt8) : List UInt8 := got ++ stack.drop got.length

/-- The client closed within the header, and what the stack held there completes it to
one that asks for the empty name. -/
def Leftover (stack stream : List UInt8) : Prop :=
  stream.length < 20 ∧ OptionHeader (completed stack stream) ∧
    namesizeOf (completed stack stream) = 0

/-- A field that ends within the first part. -/
theorem field_append {off width : Nat} {bytes : List UInt8} (h : off + width ≤ bytes.length)
    (rest : List UInt8) : ((bytes ++ rest).drop off).take width = (bytes.drop off).take width := by
  rw [List.drop_append_of_le_length (by omega), List.take_append_of_le_length]
  rw [List.length_drop]
  omega

theorem namesizeOf_append {header : List UInt8} (h : header.length = 20) (rest : List UInt8) :
    namesizeOf (header ++ rest) = namesizeOf header :=
  congrArg decodeBE (field_append (by omega) rest)

theorem optionHeader_append {header : List UInt8} (h : header.length = 20) (rest : List UInt8) :
    OptionHeader (header ++ rest) ↔ OptionHeader header := by
  simp only [OptionHeader, namesizeOf_append h, @field_append 4 8 header (by omega) rest,
    @field_append 12 4 header (by omega) rest]

/-- The NUL that `g_malloc0` leaves behind the name adds nothing to it. -/
theorem cString_append_nul (name : List UInt8) : cString (name ++ [0]) = cString name := by
  induction name with
  | nil => rfl
  | cons b name ih =>
    simp only [cString] at ih ⊢
    rw [List.cons_append, List.takeWhile_cons, List.takeWhile_cons, ih]

/-- The first phase on what the client sent before it closed. -/
theorem phase0_hear (stack stream : List UInt8) :
    (nbdNegotiateV2ServerPhase0 stack).hear stream =
      let header := completed stack (stream.take 20)
      if OptionHeader header ∧ namesizeOf header ≤ (stream.drop 20).length then
        some ((stream.drop 20).take (namesizeOf header) ++ [0])
      else none := by
  have hfields : ∀ header, OptionHeader header ↔
      ¬(decodeBE ((header.drop 4).take 8) ≠ version2Magic ∨
        decodeBE ((header.drop 12).take 4) ≠ optExportName) ∧
      ¬namesizeOf header > exportNameMaxlen := by
    intro header
    simp only [OptionHeader, not_or, not_not, not_lt, and_assoc]
  simp only [nbdNegotiateV2ServerPhase0, Party.hear, Bool.true_eq_false, if_false]
  rw [← completed, ← namesizeOf]
  generalize completed stack (stream.take 20) = header
  generalize stream.drop 20 = rest
  by_cases hopt : decodeBE ((header.drop 4).take 8) ≠ version2Magic ∨
      decodeBE ((header.drop 12).take 4) ≠ optExportName
  · rw [if_pos hopt, if_neg fun h => ((hfields header).mp h.1).1 hopt]
    rfl
  by_cases hlong : namesizeOf header > exportNameMaxlen
  · rw [if_neg hopt, if_pos hlong, if_neg fun h => ((hfields header).mp h.1).2 hlong]
    rfl
  have hok : OptionHeader header := (hfields header).mpr ⟨hopt, hlong⟩
  rw [if_neg hopt, if_neg hlong, Party.hear]
  by_cases hrest : namesizeOf header ≤ rest.length
  · have hall : ¬(rest.take (namesizeOf header)).length < namesizeOf header := by
      rw [List.length_take]
      omega
    rw [if_neg hall, if_pos ⟨hok, hrest⟩]
    rfl
  · have hshort : (rest.take (namesizeOf header)).length < namesizeOf header := by
      rw [List.length_take]
      omega
    rw [if_pos hshort, if_neg fun h => hrest h.2]
    rfl

/-- The first phase reads exactly its grammar, unless the client closes within the
header and the stack completes it. -/
theorem phase0_grammar_iff (stack stream : List UInt8) :
    ((nbdNegotiateV2ServerPhase0 stack).hear stream).map cString = requestedName stream ↔
      ¬Leftover stack stream := by
  rw [phase0_hear]
  by_cases hlen : stream.length < 20
  · -- nothing is left behind a short header, so only an empty name can be read
    have hnone : requestedName stream = none := if_neg fun hg => by
      have := hg.1
      omega
    have hrest : stream.drop 20 = [] := List.drop_of_length_le (by omega)
    have htake : stream.take 20 = stream := List.take_of_length_le (by omega)
    simp only [hnone, hrest, htake, Leftover, hlen, true_and, List.length_nil, Nat.le_zero,
      List.take_nil, List.nil_append]
    split
    · rename_i hleft
      simp [hleft]
    · rename_i hnot
      simp [hnot]
  · -- the fields are those the client sent
    have hnot : ¬Leftover stack stream := fun hl => hlen hl.1
    have hhead : (stream.take 20).length = 20 := by
      rw [List.length_take]
      omega
    have hopt : OptionHeader (completed stack (stream.take 20)) ↔ OptionHeader stream := by
      rw [completed, optionHeader_append hhead, ← optionHeader_append hhead (stream.drop 20),
        List.take_append_drop]
    have hsize : namesizeOf (completed stack (stream.take 20)) = namesizeOf stream := by
      rw [completed, namesizeOf_append hhead, ← namesizeOf_append hhead (stream.drop 20),
        List.take_append_drop]
    have hwhole : OptionHeader stream ∧ namesizeOf stream ≤ (stream.drop 20).length ↔
        Grammatical stream := by
      rw [Grammatical, List.length_drop]
      constructor
      · intro h
        exact ⟨by omega, h.1, by omega⟩
      · intro h
        exact ⟨h.2.1, by omega⟩
    simp only [hopt, hsize, hwhole, requestedName, hnot, not_false_eq_true, iff_true]
    split
    · rw [Option.map_some, cString_append_nul]
    · rfl

/-- All but the last byte of a header with an empty name, which the stack completes
with a zero. -/
theorem truncated_header_accepted :
    ¬∀ stack stream : List UInt8, stack.length = 20 →
      ((nbdNegotiateV2ServerPhase0 stack).hear stream).map cString = requestedName stream := by
  intro hall
  exact absurd (hall (List.replicate 20 0) ((v2Pdu1 0).take 19) (by decide)) (by decide)

end Grammar

end Xnbd.Negotiate
