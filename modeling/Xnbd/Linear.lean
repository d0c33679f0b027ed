import Xnbd.Sessions

/-!
# The proxy is one disk for all its clients

The requests take effect in the order in which `forwarder_tx` pops them. The
proof needs that a request put back after a reconnection does not fall behind
one that was not prepared yet; without remote failures nothing is ever put
back.
-/
namespace Xnbd.Linear

open Block Bitmap Bytes Nbd Requests Forwarder Reference Transitions Pipeline Coherence CacheFile
  Proxy Sessions Run

variable {disksize : Nat}

section Sound

variable {cfg : Config disksize} {remote : File} {R : RefDisk} {s t : State disksize}
  {a : Act disksize} {acts : List (Act disksize)}

/-- The condition on putting parked requests back, for a step of the proxy. -/
def Orderly (s : State disksize) : Act disksize → Prop
  | .fwd a => Pipeline.Orderly s.fwd a
  | _ => True

instance (s : State disksize) : (a : Act disksize) → Decidable (Orderly s a)
  | .fwd a => inferInstanceAs (Decidable (Pipeline.Orderly s.fwd a))
  | .register => isTrue trivial
  | .cleanup _ => isTrue trivial
  | .rx _ _ => isTrue trivial
  | .tx _ _ => isTrue trivial

/-- Everything that holds of the proxy between two steps. -/
structure Sound (cfg : Config disksize) (remote : File) (R : RefDisk) (s : State disksize) :
    Prop where
  coherent : Coherent cfg remote R s.fwd
  delivery : Delivery s

theorem start_sound {cbitmap : Words} {cache : File}
    (h : cbitmap.length = bitsToLongs (getDiskNblocks disksize)) :
    Sound cfg remote (refOf cbitmap cache remote) (start cbitmap cache : State disksize) :=
  ⟨initial_coherent h, fun k ps hps => by simp [start] at hps⟩

theorem step_sound (h : Sound cfg remote R s) (ho : Orderly s a)
    (hs : Proxy.step cfg remote s a = some t) : Sound cfg remote R t := by
  have hm := (step_move hs).2
  refine ⟨?_, move_delivery h.delivery hm⟩
  rcases move_fwd hm with heq | ⟨e, hf⟩ | ⟨fa, rfl, hf⟩
  · rw [heq]
    exact h.coherent
  · exact step_coherent (a := .push e) h.coherent trivial hf
  · exact step_coherent h.coherent ho hf

theorem run_sound (h : Sound cfg remote R s) (ho : Along (Proxy.step cfg remote) Orderly s acts)
    (hrun : run (Proxy.step cfg remote) s acts = some t) : Sound cfg remote R t :=
  run_invariant (fun _ _ _ hI hP hs => step_sound hI hP hs) h ho hrun

end Sound

section Replies

variable {cfg : Config disksize} {remote : File} {R : RefDisk} {s : State disksize} {k : Nat}
  {ps : Session disksize}

/-- The replies of a session follow the order: each belongs to one request of
the session, in increasing order, and a READ carries the bytes of the reference
disk at that point. -/
structure Linearizes (R : RefDisk) (order : List (Call disksize)) (k : Nat)
    (replied : List (Priv disksize)) : Prop where
  increasing : (replied.map Priv.seqnum).Pairwise (· < ·)
  own : ∀ p ∈ replied, p.call.session = k
  answered : ∀ p ∈ replied, Answered R order p

theorem Linearizes.mono {order order' : List (Call disksize)} {replied : List (Priv disksize)}
    (h : Linearizes R order k replied) (ho : order <+: order') :
    Linearizes R order' k replied := by
  obtain ⟨later, rfl⟩ := ho
  exact ⟨h.increasing, h.own, fun p hp => (h.answered p hp).append later⟩

/-- The numbers of the requests handed over so far increase. -/
theorem handed_increasing {f : Fwd disksize} (h : Numbered f) :
    ((privs f.handed).map Priv.seqnum).Pairwise (· < ·) := by
  have hall : ((privs (f.handed ++ rxHands f.rx)).map Priv.seqnum).Pairwise (· < ·) := by
    rw [h]
    exact List.pairwise_lt_range
  rw [privs_append, List.map_append] at hall
  exact (List.pairwise_append.mp hall).1

theorem Sound.linearizes (h : Sound cfg remote R s) (hps : s.sessions[k]? = some ps) :
    Linearizes R s.fwd.executed k ps.replied := by
  have hd := h.delivery k ps hps
  have hsub := hd.replied_sublist
  have hhanded : ps.replied.Sublist (privs s.fwd.handed) :=
    hsub.trans (hd.handed.filterMap priv?)
  refine ⟨?_, fun p hp => ?_, fun p hp => ?_⟩
  · exact (handed_increasing h.coherent.numbered).sublist (hhanded.map Priv.seqnum)
  · have hk := hd.own (.req p) (mem_privs.mp (hsub.subset hp))
    exact Option.some.inj hk
  · exact h.coherent.contents.answered p (.inr (mem_privs.mp (hhanded.subset hp)))

theorem executed_prefix_popped {f : Fwd disksize} (h : Order R f) : f.executed <+: f.popped := by
  rw [h.popped, h.prepared, List.append_assoc]
  exact List.prefix_append _ _

theorem popped_prefix_entered {f : Fwd disksize} (h : Order R f) : f.popped <+: f.entered := by
  rw [h.entered]
  exact List.prefix_append _ _

end Replies

section Quiet

variable {cfg : Config disksize} {remote : File} {R : RefDisk} {f g : Fwd disksize}
  {s t : State disksize} {a : Act disksize}

/-- A send to or a receive from the remote server that fails. -/
def remoteFailure : Act disksize → Bool
  | .fwd (.tx false) => true
  | .fwd (.rx (.failed _)) => true
  | _ => false

/-- Nothing has failed so far. -/
structure Quiet (f : Fwd disksize) : Prop where
  sent : f.sendingFailed = false
  received : f.receivingFailed = false
  unparked : f.fwdRetryQueue = []

theorem step_quiet {fa : Action disksize} (hc : Coherent cfg remote R f) (h : Quiet f)
    (hno : fa ≠ .tx false ∧ ∀ bytes, fa ≠ .rx (.failed bytes))
    (hs : Forwarder.step cfg remote f fa = some g) : Quiet g := by
  cases step_trans hs with
  | txSendFailed p i rr htx hrr => exact absurd rfl hno.1
  | rxFailed p mbr i rr bytes hrx hrr hlen => exact absurd rfl (hno.2 bytes)
  | rxPark ev p mbr i hrx hrr hp =>
    rcases hp with hp | hp
    · have hsent := hc.failing.sent p (by simp [rxLine, hrx, rxHeld]) hp
      simp [h.sent] at hsent
    · simp [h.received] at hp
  | requeue p rest hm hq => simp [h.unparked] at hq
  | restart hm hq => exact ⟨rfl, rfl, hq⟩
  | _ => exact ⟨h.sent, h.received, h.unparked⟩

theorem Quiet.orderly (h : Quiet s.fwd) (a : Act disksize) : Orderly s a := by
  cases a with
  | fwd fa =>
    cases fa with
    | requeue => exact fun hne => absurd h.unparked hne
    | _ => trivial
  | _ => trivial

/-- A step without a remote failure keeps the proxy sound and quiet. -/
theorem step_sound_quiet (h : Sound cfg remote R s ∧ Quiet s.fwd) (hno : remoteFailure a = false)
    (hs : Proxy.step cfg remote s a = some t) : Sound cfg remote R t ∧ Quiet t.fwd := by
  refine ⟨step_sound h.1 (h.2.orderly a) hs, ?_⟩
  rcases move_fwd (step_move hs).2 with heq | ⟨e, hf⟩ | ⟨fa, rfl, hf⟩
  · rw [heq]
    exact h.2
  · exact step_quiet h.1.coherent h.2 ⟨by simp, by simp⟩ hf
  · refine step_quiet h.1.coherent h.2 ⟨?_, fun bytes => ?_⟩ hf
    · rintro rfl
      simp [remoteFailure] at hno
    · rintro rfl
      simp [remoteFailure] at hno

end Quiet

/-- Without remote failures the order in which `forwarder_tx` pops the requests
of all sessions is a linearization: every reply is that of the reference disk
which holds the cached blocks and shows the remote ones. -/
theorem proxy_linearizable (cfg : Config disksize) (remote cache : File) (cbitmap : Words)
    (hlen : cbitmap.length = bitsToLongs (getDiskNblocks disksize)) (acts : List (Act disksize))
    (hno : ∀ a ∈ acts, remoteFailure a = false) (s : State disksize)
    (hrun : run (Proxy.step cfg remote) (start cbitmap cache) acts = some s) :
    s.fwd.popped <+: s.fwd.entered ∧ ∀ k ps, s.sessions[k]? = some ps →
      Linearizes (refOf cbitmap cache remote) s.fwd.popped k ps.replied := by
  have hI : Sound cfg remote (refOf cbitmap cache remote) s ∧ Quiet s.fwd :=
    run_invariant (P := fun _ a => remoteFailure a = false)
      (fun _ _ _ hI hP hs => step_sound_quiet hI hP hs)
      ⟨start_sound hlen, rfl, rfl, rfl⟩ (along_forall hno) hrun
  have ho := hI.1.coherent.order
  refine ⟨popped_prefix_entered ho, fun k ps hps => ?_⟩
  exact (hI.1.linearizes hps).mono (executed_prefix_popped ho)

/-- A disk of two bytes. -/
def twoBytes : Config 2 := ⟨4096, false, 0, 0, Nat.two_pos, two_le_offMax, page_pos, page_le⟩

/-- The rx thread of a session receives a request and pushes it. -/
def submit (k : Nat) (header : List UInt8) (payload : Option (List UInt8)) : List (Act 2) :=
  .rx k (.message header payload) :: List.replicate 3 (.rx k .broken)

/-- Steps of `forwarder_tx` on a working connection. -/
def sends (n : Nat) : List (Act 2) := List.replicate n (.fwd (.tx true))

/-- Steps of `forwarder_rx` on a working connection. -/
def receives (n : Nat) : List (Act 2) := List.replicate n (.fwd (.rx .reply))

/-- Steps of a session's tx thread. -/
def answers (k n : Nat) : List (Act 2) := List.replicate n (.tx k true)

def readFirst : List UInt8 := readHeader [0, 0, 0, 0, 0, 0, 0, 0]

def readSecond : List UInt8 := readHeader [0, 0, 0, 0, 0, 0, 0, 1]

/-- A WRITE header for the second byte. -/
def writeSecond : List UInt8 :=
  [0x25, 0x60, 0x95, 0x13] ++ [0, 0, 0, 1] ++ [0, 0, 0, 0, 0, 0, 0, 0] ++
    [0, 0, 0, 0, 0, 0, 0, 1] ++ [0, 0, 0, 1]

/-- Two sessions; `forwarder_tx` prepares a READ, a WRITE to the same block and a
READ of what it wrote before `forwarder_rx` takes the first of them. -/
def pipelined : List (Act 2) :=
  .register :: .register :: submit 0 readFirst none ++ submit 1 writeSecond (some [9]) ++
    submit 0 readSecond none ++ sends 16 ++ receives 10 ++ answers 0 6 ++ answers 1 3

theorem proxy_linearizable_pipelined :
    ∃ s, run (Proxy.step twoBytes fun _ => 7) (start [0] fun _ => 0) pipelined = some s ∧
      (s.sessions.map fun ps => ps.replied.map Priv.readBuff) = [[[7], [9]], [[]]] ∧
      ∀ k ps, s.sessions[k]? = some ps →
        Linearizes (refOf [0] (fun _ => 0) fun _ => 7) s.fwd.popped k ps.replied := by
  have hmap : ((run (Proxy.step twoBytes fun _ => 7) (start [0] fun _ => 0) pipelined).map
      fun s => s.sessions.map fun ps => ps.replied.map Priv.readBuff) =
        some [[[7], [9]], [[]]] := by decide
  obtain ⟨s, hs, hreplied⟩ := Option.map_eq_some_iff.mp hmap
  refine ⟨s, hs, hreplied, ?_⟩
  exact (proxy_linearizable twoBytes (fun _ => 7) (fun _ => 0) [0] (by decide) pipelined
    (by decide) s hs).2

/-- Across failures and reconnections: as long as no parked request falls behind
one that is still to be prepared, the requests are carried out in the order in
which they entered, the replies follow it, and the cache file holds what was
carried out. -/
theorem reconnection_coherent (cfg : Config disksize) (remote cache : File) (cbitmap : Words)
    (hlen : cbitmap.length = bitsToLongs (getDiskNblocks disksize)) (acts : List (Act disksize))
    (ho : Along (Proxy.step cfg remote) Orderly (start cbitmap cache) acts) (s : State disksize)
    (hrun : run (Proxy.step cfg remote) (start cbitmap cache) acts = some s) :
    s.fwd.executed <+: s.fwd.entered ∧
      (∀ k ps, s.sessions[k]? = some ps →
        Linearizes (refOf cbitmap cache remote) s.fwd.executed k ps.replied) ∧
      Settled disksize (refRun (refOf cbitmap cache remote) s.fwd.executed) s.fwd.cache remote := by
  have hI := run_sound (start_sound hlen) ho hrun
  have hord := hI.coherent.order
  refine ⟨?_, fun k ps hps => hI.linearizes hps, hI.coherent.contents.settled⟩
  exact (executed_prefix_popped hord).trans (popped_prefix_entered hord)

/-- A READ that the remote server never sees: the send fails and the request is
parked. -/
def failFirst : List (Act 2) :=
  .register :: submit 0 readFirst none ++ sends 4 ++ .fwd (.tx false) :: sends 1 ++ receives 1 ++
    .fwd (.rx (.failed [])) :: receives 1

/-- The main thread stops an idle forwarder and joins it. -/
def joinForwarder (final : Bool) : List (Act 2) :=
  [.fwd (.stop final), .fwd (.tx true), .fwd (.tx true), .fwd (.rx .reply), .fwd .joined]

/-- One parked request is put back, and the threads are started. -/
def restartForwarder : List (Act 2) := [.fwd .requeue, .fwd .requeue]

/-- The parked READ is sent again on the new connection. -/
def retried : List (Act 2) :=
  failFirst ++ joinForwarder false ++ restartForwarder ++ sends 4 ++ receives 4 ++ answers 0 3

theorem reconnection_coherent_retried :
    Along (Proxy.step twoBytes fun _ => 7) Orderly (start [0] fun _ => 0) retried ∧
      ∃ s, run (Proxy.step twoBytes fun _ => 7) (start [0] fun _ => 0) retried = some s ∧
        (s.sessions.map fun ps => ps.replied.map Priv.readBuff) = [[[7]]] ∧
        s.fwd.executed <+: s.fwd.entered ∧ ∀ k ps, s.sessions[k]? = some ps →
          Linearizes (refOf [0] (fun _ => 0) fun _ => 7) s.fwd.executed k ps.replied := by
  have ho : Along (Proxy.step twoBytes fun _ => 7) Orderly (start [0] fun _ => 0) retried := by
    decide
  have hmap : ((run (Proxy.step twoBytes fun _ => 7) (start [0] fun _ => 0) retried).map
      fun s => s.sessions.map fun ps => ps.replied.map Priv.readBuff) = some [[[7]]] := by decide
  obtain ⟨s, hs, hreplied⟩ := Option.map_eq_some_iff.mp hmap
  have h := reconnection_coherent twoBytes (fun _ => 7) (fun _ => 0) [0] (by decide) retried ho s hs
  exact ⟨ho, s, hs, hreplied, h.1, h.2.1⟩

/-- A second READ of the same block arrives before the parked one is put back. -/
def overtaken : List (Act 2) :=
  failFirst ++ joinForwarder false ++ submit 0 readSecond none ++ restartForwarder ++ sends 5 ++
    receives 3 ++ answers 0 3

/-- The later READ is carried out first, and since the block is marked but was
never fetched, its reply is the empty cache file's byte and not the remote one. -/
theorem reconnection_overtaken :
    ∃ s, run (Proxy.step twoBytes fun _ => 7) (start [0] fun _ => 0) overtaken = some s ∧
      ¬s.fwd.executed <+: s.fwd.entered ∧
      (s.sessions.map fun ps => ps.replied.map Priv.readBuff) = [[[0]]] ∧
      slice (refRun (refOf [0] (fun _ => 0) fun _ => 7) (s.fwd.entered.take 1)).bytes 1 1 =
        [7] := by
  have hmap : ((run (Proxy.step twoBytes fun _ => 7) (start [0] fun _ => 0) overtaken).map
      fun s => (decide (s.fwd.executed <+: s.fwd.entered),
        s.sessions.map fun ps => ps.replied.map Priv.readBuff,
        slice (refRun (refOf [0] (fun _ => 0) fun _ => 7) (s.fwd.entered.take 1)).bytes 1 1)) =
        some (false, [[[0]]], [7]) := by decide
  obtain ⟨s, hs, hproj⟩ := Option.map_eq_some_iff.mp hmap
  simp only [Prod.mk.injEq, decide_eq_false_iff_not] at hproj
  exact ⟨s, hs, hproj⟩

end Xnbd.Linear
