import Mathlib.Data.List.Perm.Basic
import Xnbd.Teardown

/-!
# Every request of a session is answered once

A request that has come in is with its session, on the forwarder's line or parked, in one of
these places and once. When the exit entry has gone the same way, the session has had them all.
-/
namespace Xnbd.Completion

open Block Bitmap Bytes Nbd Requests Forwarder Reference Transitions Pipeline Coherence CacheFile
  Proxy Sessions Linear Teardown Places Run

variable {disksize : Nat}

section Places

/-- What an entry asks for, if it is a request of the session. -/
def call? (k : Nat) : Entry disksize → Option (Call disksize)
  | .req p => if p.call.session = k then some p.call else none
  | _ => none

def calls (k : Nat) (q : List (Entry disksize)) : List (Call disksize) := q.filterMap (call? k)

/-- What the session has asked for, in the order in which it came in. -/
def asked (k : Nat) (f : Fwd disksize) : List (Call disksize) :=
  f.entered.filter fun c => c.session = k

/-- The requests of the session that the forwarder has. -/
def underway (k : Nat) (f : Fwd disksize) : List (Call disksize) :=
  seen (call? k) f ++ calls k (f.fwdRetryQueue.map Entry.req)

@[simp] theorem calls_nil (k : Nat) : calls k ([] : List (Entry disksize)) = [] := rfl

@[simp] theorem calls_append (k : Nat) (a b : List (Entry disksize)) :
    calls k (a ++ b) = calls k a ++ calls k b := List.filterMap_append

theorem call_steady (k : Nat) : Steady (call? k : Entry disksize → Option (Call disksize)) where
  stop := rfl
  call p q h := by simp only [call?, h]

theorem calls_other {k : Nat} {e : Entry disksize} (h : session? e ≠ some k) :
    calls k [e] = [] := by
  cases e with
  | req p =>
    have hk : p.call.session ≠ k := fun hk => h (congrArg some hk)
    simp [calls, call?, hk]
  | stop => rfl
  | exit j b => rfl

/-- The requests among the session's own entries. -/
theorem calls_own {k : Nat} {q : List (Entry disksize)} (h : ∀ e ∈ q, session? e = some k) :
    calls k q = (privs q).map Priv.call := by
  induction q with
  | nil => rfl
  | cons e q ih =>
    have hrest := ih fun e' he' => h e' (List.mem_cons_of_mem _ he')
    have he := h e List.mem_cons_self
    rw [← List.singleton_append, calls_append, privs_append, List.map_append, hrest]
    congr 1
    cases e with
    | stop => rfl
    | exit j b => rfl
    | req p =>
      have hk : p.call.session = k := Option.some.inj he
      simp [calls, call?, hk]

theorem call_none {k : Nat} {e : Entry disksize} (h : mark k e = none) : call? k e = none := by
  cases e with
  | stop => rfl
  | exit j b => rfl
  | req p =>
    simp only [mark, ite_eq_right_iff, reduceCtorEq, imp_false] at h
    simp [call?, h]

/-- The forwarder has no request of a session that it holds nothing of. -/
theorem absent_underway {f : Fwd disksize} {k : Nat} (h : Absent f k) : underway k f = [] := by
  have hline : seen (call? k) f = [] := by
    have hmarks := List.filterMap_eq_nil_iff.mp h.trail
    exact List.filterMap_eq_nil_iff.mpr fun e he => call_none (hmarks e he)
  have hparked : calls k (f.fwdRetryQueue.map Entry.req) = [] := by
    refine List.filterMap_eq_nil_iff.mpr fun e he => ?_
    obtain ⟨p, hp, rfl⟩ := List.mem_map.mp he
    simp [call?, h.parked p hp]
  rw [underway, hline, hparked, List.append_nil]

end Places

section Forwarder

variable {cfg : Config disksize} {remote : File} {f g : Fwd disksize} {a : Action disksize}
  {k : Nat}

/-- The entry that a step puts on the forwarder's line. -/
def incoming : Action disksize → List (Entry disksize)
  | .push e => [e]
  | _ => []

/-- The entry that a step hands over to its session. -/
def outgoing (f : Fwd disksize) (a : Action disksize) : List (Entry disksize) :=
  (handing f a).toList

theorem push_asked {e : Entry disksize} (h : Forwarder.step cfg remote f (.push e) = some g) :
    asked k g = asked k f ++ calls k [e] := by
  simp only [Forwarder.step] at h
  split at h
  · cases h
  cases e with
  | stop => cases h
  | exit j b =>
    cases h
    exact (List.append_nil _).symm
  | req p =>
    simp only [Fwd.pushStep] at h
    split at h
    · cases h
      rw [asked, List.filter_append]
      congr 1
      by_cases hk : p.call.session = k
      · simp [calls, call?, hk]
      · simp [calls, call?, hk]
    · cases h

theorem step_asked (h : Forwarder.step cfg remote f a = some g) :
    asked k g = asked k f ++ calls k (incoming a) := by
  cases a with
  | push e => exact push_asked h
  | _ =>
    refine Eq.trans ?_ (List.append_nil _).symm
    cases step_trans h <;> rfl

/-- A step that moves entries along the line, parks one or puts one back. -/
theorem drift_underway (hd : Drift (call? k) f a g) (hin : incoming a = [])
    (hout : outgoing f a = []) : (underway k f).Perm (underway k g) := by
  cases hd with
  | same ht hr => rw [underway, underway, ht, hr]
  | enters e ha ht hr =>
    subst ha
    cases hin
  | hands ev e ha hrx ht hr =>
    subst ha
    simp [outgoing, handing, hrx] at hout
  | parks p p' ht hr hp =>
    have hcall : calls k [.req p'] = calls k [.req p] := by
      simp only [calls, List.filterMap_cons, (call_steady k).call p' p hp]
    rw [underway, underway, ht, hr, List.map_append, calls_append, List.append_assoc]
    refine List.perm_append_comm.trans ?_
    rw [List.append_assoc]
    exact List.Perm.append_left _ (List.Perm.append_left _ (.of_eq hcall.symm))
  | returns p ha ht hr hq =>
    rw [underway, underway, ht, hr, List.map_cons, ← List.singleton_append, calls_append,
      ← List.append_assoc]
    exact .refl _

/-- The requests that the forwarder has after a step, with the one that left. -/
theorem step_underway (hc : Control f) (h : Forwarder.step cfg remote f a = some g) :
    (underway k f ++ calls k (incoming a)).Perm (calls k (outgoing f a) ++ underway k g) := by
  have hd := trans_drift (call_steady k) hc (step_trans h)
  by_cases hin : incoming a = []
  · by_cases hout : outgoing f a = []
    · rw [hin, hout, calls_nil, List.append_nil, List.nil_append]
      exact drift_underway hd hin hout
    · have hsome : handing f a ≠ none := fun hnone => hout (by rw [outgoing, hnone]; rfl)
      obtain ⟨e, he⟩ := Option.ne_none_iff_exists'.mp hsome
      obtain ⟨hrx, ev, rfl⟩ := handing_some he
      obtain ⟨hseen, hr⟩ := hand_seen h hrx
      rw [hin, calls_nil, List.append_nil, outgoing, he, underway, underway, hseen, hr,
        List.append_assoc]
      exact .refl _
  · cases a with
    | push e =>
      obtain ⟨hseen, hr⟩ := push_seen h
      rw [underway, underway, hseen, hr, List.append_assoc]
      refine (List.Perm.append_left _ List.perm_append_comm).trans ?_
      rw [← List.append_assoc]
      exact .refl _
    | _ => exact absurd rfl hin

end Forwarder

section Accounts

variable {cfg : Config disksize} {remote : File} {s t : State disksize} {a : Act disksize}
  {j k : Nat} {ps ps' : Session disksize}

/-- The entries that were handed to the session. -/
def pushedOf (s : State disksize) (k : Nat) : List (Entry disksize) :=
  match s.sessions[k]? with
  | some ps => ps.pushed
  | none => []

/-- Every request that has come in was handed back once or is with the forwarder once. -/
def Accounted (s : State disksize) (k : Nat) : Prop :=
  (asked k s.fwd).Perm (calls k (pushedOf s k) ++ underway k s.fwd)

theorem pushedOf_of (hps : s.sessions[k]? = some ps) : pushedOf s k = ps.pushed := by
  rw [pushedOf, hps]

theorem pushedOf_set (hps : s.sessions[j]? = some ps) (hset : t.sessions = s.sessions.set j ps') :
    pushedOf t k = if k = j then ps'.pushed else pushedOf s k := by
  have hj := (List.getElem?_eq_some_iff.mp hps).1
  rw [pushedOf, hset, List.getElem?_set]
  by_cases hk : k = j
  · simp [hk, hj]
  · simp [hk, pushedOf, Ne.symm hk]

/-- A session changes whose queue takes nothing in. -/
theorem pushedOf_keep (hps : s.sessions[j]? = some ps) (hset : t.sessions = s.sessions.set j ps')
    (hp : ps'.pushed = ps.pushed) : pushedOf t k = pushedOf s k := by
  rw [pushedOf_set hps hset]
  split
  · rename_i hk
    rw [hp, hk, pushedOf_of hps]
  · rfl

theorem Accounted.keep (h : Accounted s k) (hf : t.fwd = s.fwd)
    (hp : pushedOf t k = pushedOf s k) : Accounted t k := by
  rw [Accounted, hf, hp]
  exact h

/-- The forwarder takes a step, and the session's queue what it hands over. -/
theorem Accounted.step (h : Accounted s k) (hc : Control s.fwd) {fa : Action disksize}
    (hf : Forwarder.step cfg remote s.fwd fa = some t.fwd)
    (hp : calls k (pushedOf t k) = calls k (pushedOf s k) ++ calls k (outgoing s.fwd fa)) :
    Accounted t k := by
  calc asked k t.fwd
    _ = asked k s.fwd ++ calls k (incoming fa) := step_asked hf
    List.Perm _ (calls k (pushedOf s k) ++ underway k s.fwd ++ calls k (incoming fa)) :=
      List.Perm.append_right _ h
    List.Perm _ (calls k (pushedOf s k) ++ (calls k (outgoing s.fwd fa) ++ underway k t.fwd)) := by
      rw [List.append_assoc]
      exact List.Perm.append_left _ (step_underway hc hf)
    _ = calls k (pushedOf t k) ++ underway k t.fwd := by rw [hp, List.append_assoc]

theorem move_accounted (hsafe : Safe s) (h : ∀ k, Accounted s k) (hm : Move cfg remote s a t) :
    ∀ k, Accounted t k := by
  intro k
  cases hm with
  | register hmain =>
    refine (h k).keep rfl ?_
    rw [pushedOf, pushedOf, List.getElem?_append]
    by_cases hk : k < s.sessions.length
    · rw [if_pos hk]
    · rw [if_neg hk, List.getElem?_eq_none (Nat.le_of_not_lt hk), List.getElem?_singleton]
      by_cases hnew : k - s.sessions.length = 0
      · rw [if_pos hnew]
        rfl
      · rw [if_neg hnew]
  | cleanupFails j ps hps htx hq => exact (h k).keep rfl rfl
  | cleanup j ps hps hrx htx hq
  | rxRecv j arrival ps e hps hrx hk hf
  | rxWait j arrival ps e hps hrx hfits
  | rxAdd j arrival ps e hps hrx
  | txPopSend j sent ps p rest hps htx hq hskip
  | txPopSkip j sent ps e rest hps htx hq
  | txSend j sent ps p hps htx
  | txRelease j sent ps e hps htx => exact (h k).keep rfl (pushedOf_keep hps rfl rfl)
  | rxPush j arrival ps e f hps hrx hf =>
    refine (h k).step hsafe.control hf ?_
    refine Eq.trans (congrArg (calls k) ?_) (List.append_nil _).symm
    exact pushedOf_keep hps rfl rfl
  | hand ev e j ps f hf hrx hk hps =>
    have hout : outgoing s.fwd (.rx ev) = [e] := by simp [outgoing, handing, hrx]
    refine (h k).step hsafe.control hf ?_
    rw [hout, pushedOf_set hps rfl]
    by_cases hkj : k = j
    · subst hkj
      rw [if_pos rfl, calls_append, pushedOf_of hps]
    · rw [if_neg hkj, calls_other fun hk' => hkj (Option.some.inj (hk'.symm.trans hk)),
        List.append_nil]
  | forward fa f hf ha hno =>
    refine (h k).step hsafe.control hf ?_
    suffices hout : calls k (outgoing s.fwd fa) = [] by
      rw [hout, List.append_nil]
      rfl
    cases he : handing s.fwd fa with
    | none => rw [outgoing, he]; rfl
    | some e =>
      rw [outgoing, he]
      refine calls_other fun hk => ?_
      -- the forwarder has no entry of a session that was never registered
      have hlen := List.getElem?_eq_none_iff.mp (hno e k he hk)
      exact (hsafe.unknown k hlen).not_handing (handing_some he).1 hk

end Accounts

section Replies

variable {cfg : Config disksize} {remote : File} {R : RefDisk} {s t : State disksize}
  {a : Act disksize} {k : Nat} {ps : Session disksize}

/-- The tx thread answers every request that it takes, until a reply does not go through. -/
structure Replying (ps : Session disksize) : Prop where
  queue : ∃ done skipped, ps.pushed = done ++ skipped ++ unsent ps.tx ++ ps.txQueue ∧
    ps.replied = privs done ∧ (ps.needSkip = false → skipped = [])
  sending : ∀ p, ps.tx = .send p → ps.needSkip = false

/-- Only an exit entry is let go without a reply as long as the client takes its replies. -/
theorem popSkip_exit {sent : Bool} {e : Entry disksize} {rest : List (Entry disksize)}
    (h : Proxy.step cfg remote s (.tx k sent) =
      some (s.setSession k { ps with txQueue := rest, tx := .release e }))
    (hps : s.sessions[k]? = some ps) (htx : ps.tx = .pop) (hq : ps.txQueue = e :: rest)
    (hskip : ps.needSkip = false) : privs [e] = [] := by
  cases e with
  | stop => rfl
  | exit j b => rfl
  | req p =>
    have hlt := (List.getElem?_eq_some_iff.mp hps).1
    have hsend : Proxy.step cfg remote s (.tx k sent) =
        some (s.setSession k { ps with txQueue := rest, tx := .send p }) := by
      unfold Proxy.step at h ⊢
      split at h
      · cases h
      · rename_i hdead
        simp [hdead, hps, txThread, htx, hq, hskip]
    have heq := congrArg (fun s => s.sessions[k]?) (Option.some.inj (h.symm.trans hsend))
    simp [State.setSession, hlt] at heq

theorem step_replying (h : ∀ (k : Nat) (ps : Session disksize), s.sessions[k]? = some ps →
    Replying ps) (hs : Proxy.step cfg remote s a = some t) :
    ∀ (k : Nat) (ps : Session disksize), t.sessions[k]? = some ps → Replying ps := by
  cases (step_move hs).2 with
  | register hmain =>
    exact forall_append h ⟨⟨[], [], rfl, rfl, fun _ => rfl⟩, fun p hp => by cases hp⟩
  | cleanupFails k ps hps htx hq
  | forward fa f hf ha hno => exact h
  | cleanup k ps hps hrx htx hq
  | rxRecv k arrival ps e hps hrx hk hf
  | rxWait k arrival ps e hps hrx hfits
  | rxAdd k arrival ps e hps hrx
  | rxPush k arrival ps e f hps hrx hf =>
    exact forall_set (fun j pj hj _ => h j pj hj) ⟨(h k ps hps).queue, (h k ps hps).sending⟩
  | txPopSend k sent ps p rest hps htx hq hskip =>
    obtain ⟨done, skipped, hdone, hrep, hskipped⟩ := (h k ps hps).queue
    refine forall_set (fun j pj hj _ => h j pj hj)
      ⟨⟨done, skipped, ?_, hrep, hskipped⟩, fun _ _ => hskip⟩
    simp [hdone, unsent, htx, hq]
  | txPopSkip k sent ps e rest hps htx hq =>
    obtain ⟨done, skipped, hdone, hrep, hskipped⟩ := (h k ps hps).queue
    refine forall_set (fun j pj hj _ => h j pj hj) ⟨?_, fun p hp => by cases hp⟩
    cases hskip : ps.needSkip with
    | false =>
      refine ⟨done ++ [e], [], ?_, ?_, fun _ => rfl⟩
      · simp [hdone, hskipped hskip, unsent, htx, hq]
      · rw [privs_append, popSkip_exit hs hps htx hq hskip, List.append_nil]
        exact hrep
    | true =>
      refine ⟨done, skipped ++ [e], ?_, hrep, fun hne => ?_⟩
      · simp [hdone, unsent, htx, hq]
      · cases hne
  | txSend k sent ps p hps htx =>
    obtain ⟨done, skipped, hdone, hrep, hskipped⟩ := (h k ps hps).queue
    have hnil := hskipped ((h k ps hps).sending p htx)
    refine forall_set (fun j pj hj _ => h j pj hj) ⟨?_, fun p hp => by cases hp⟩
    refine ⟨done ++ [.req p], [], ?_, ?_, fun _ => rfl⟩
    · simp [hdone, hnil, unsent, htx]
    · simp [hrep]
  | txRelease k sent ps e hps htx =>
    obtain ⟨done, skipped, hdone, hrep, hskipped⟩ := (h k ps hps).queue
    refine forall_set (fun j pj hj _ => h j pj hj)
      ⟨⟨done, skipped, ?_, hrep, hskipped⟩, fun p hp => ?_⟩
    · dsimp only
      rw [hdone, htx]
      split <;> rfl
    · dsimp only at hp
      split at hp <;> cases hp
  | hand ev e k ps f hf hrx hk hps =>
    obtain ⟨done, skipped, hdone, hrep, hskipped⟩ := (h k ps hps).queue
    refine forall_set (fun j pj hj _ => h j pj hj)
      ⟨⟨done, skipped, ?_, hrep, hskipped⟩, (h k ps hps).sending⟩
    dsimp only
    rw [hdone, List.append_assoc]

/-- What holds of the sessions between two steps. -/
structure Attended (s : State disksize) : Prop where
  safe : Safe s
  accounted : ∀ k, Accounted s k
  replying : ∀ (k : Nat) (ps : Session disksize), s.sessions[k]? = some ps → Replying ps

theorem start_attended (cbitmap : Words) (cache : File) :
    Attended (start cbitmap cache : State disksize) where
  safe := start_safe cbitmap cache
  accounted := fun _ => .refl _
  replying := fun k ps hps => by simp [start] at hps

theorem step_attended (h : Attended s) (hp : Departs s a)
    (hs : Proxy.step cfg remote s a = some t) : Attended t where
  safe := move_safe h.safe hp (step_move hs).2
  accounted := move_accounted h.safe h.accounted (step_move hs).2
  replying := step_replying h.replying hs

end Replies

section Sessions

variable {cfg : Config disksize} {remote : File} {R : RefDisk} {s : State disksize} {k : Nat}
  {ps : Session disksize}

/-- What was handed over is what was carried out. -/
theorem handed_calls {f : Fwd disksize} (h : Coherent cfg remote R f) :
    (privs (f.handed ++ rxHands f.rx)).map Priv.call = f.executed := by
  have hnum : (privs (f.handed ++ rxHands f.rx)).map Priv.seqnum =
      List.range f.executed.length := h.numbered
  have hlen : (privs (f.handed ++ rxHands f.rx)).length = f.executed.length := by
    simpa using congrArg List.length hnum
  refine List.ext_getElem (by simpa using hlen) fun i hi hi' => ?_
  rw [List.length_map] at hi
  rw [List.getElem_map]
  have hmem := List.getElem_mem hi
  have hseq : (privs (f.handed ++ rxHands f.rx))[i].seqnum = i := by
    have hget : ((privs (f.handed ++ rxHands f.rx)).map Priv.seqnum)[i]? = some i := by
      rw [hnum, List.getElem?_range hi']
    rw [List.getElem?_map, List.getElem?_eq_getElem hi] at hget
    exact Option.some.inj hget
  generalize (privs (f.handed ++ rxHands f.rx))[i] = p at hmem hseq
  have hans : Answered R f.executed p := by
    refine h.contents.answered p ?_
    rcases List.mem_append.mp (mem_privs.mp hmem) with hp | hp
    · exact .inr hp
    · cases hrx : f.rx with
      | hand e =>
        rw [hrx, rxHands, List.mem_singleton] at hp
        exact .inl (by rw [hp])
      | _ => simp [hrx, rxHands] at hp
  have hcall := hans.1
  rw [hseq] at hcall
  exact (List.getElem?_eq_some_iff.mp hcall).2.symm

/-- What came back to a session is in the order of its requests. -/
theorem pushed_sublist (h : Sound cfg remote R s) (hps : s.sessions[k]? = some ps) :
    ((privs ps.pushed).map Priv.call).Sublist (asked k s.fwd) := by
  have hd := h.delivery k ps hps
  have hexecuted : ((privs ps.pushed).map Priv.call).Sublist s.fwd.executed := by
    rw [← handed_calls h.coherent, privs_append]
    exact ((hd.handed.filterMap priv?).trans (List.sublist_append_left _ _)).map Priv.call
  have hentered := hexecuted.trans ((executed_prefix_popped h.coherent.order).trans
    (popped_prefix_entered h.coherent.order)).sublist
  have hown : ((privs ps.pushed).map Priv.call).filter (fun c => c.session = k) =
      (privs ps.pushed).map Priv.call := by
    refine List.filter_eq_self.mpr fun c hc => ?_
    obtain ⟨p, hp, rfl⟩ := List.mem_map.mp hc
    have hk := hd.own (.req p) (mem_privs.mp hp)
    exact decide_eq_true (Option.some.inj hk)
  rw [← hown]
  exact hentered.filter _

/-- A session that has seen its exit entry has left nothing behind in the forwarder. -/
theorem ended_absent (h : Safe s) (hps : s.sessions[k]? = some ps) (htx : ps.tx = .exited) :
    Absent s.fwd k := by
  have hq := h.sessions k ps hps
  obtain ⟨done, hdone, hmem⟩ := hq.done (.inl htx)
  refine (hq.arrived ?_).2
  rw [hdone, List.map_append]
  exact List.mem_append_left _ hmem

/-- All that a session asked for came back, in order. -/
theorem ended_returned (hs : Sound cfg remote R s) (hsafe : Safe s) (hacc : Accounted s k)
    (hps : s.sessions[k]? = some ps) (htx : ps.tx = .exited) :
    (privs ps.pushed).map Priv.call = asked k s.fwd := by
  rw [Accounted, absent_underway (ended_absent hsafe hps htx), List.append_nil, pushedOf_of hps,
    calls_own (hs.delivery k ps hps).own] at hacc
  exact (pushed_sublist hs hps).eq_of_length hacc.length_eq.symm

/-- At every moment each request of a session was handed back once or is with the forwarder
once, and the replies are to the first of them that came back, with the bytes of the reference
disk. Once the session has ended, all of them have come back in the order in which they were
asked, and were answered unless the client stopped to take replies. -/
theorem requests_answered_once (cfg : Config disksize) (remote cache : File) (cbitmap : Words)
    (hlen : cbitmap.length = bitsToLongs (getDiskNblocks disksize)) (acts : List (Act disksize))
    (hdep : Along (Proxy.step cfg remote) Departs (start cbitmap cache) acts)
    (ho : Along (Proxy.step cfg remote) Linear.Orderly (start cbitmap cache) acts)
    (s : State disksize) (hrun : run (Proxy.step cfg remote) (start cbitmap cache) acts = some s)
    (k : Nat) (ps : Session disksize) (hps : s.sessions[k]? = some ps) :
    (asked k s.fwd).Perm (calls k ps.pushed ++ underway k s.fwd) ∧
      ps.replied <+: privs ps.pushed ∧
      Linearizes (refOf cbitmap cache remote) s.fwd.executed k ps.replied ∧
      (ps.tx = .exited → (privs ps.pushed).map Priv.call = asked k s.fwd ∧
        (ps.needSkip = false → ps.replied.map Priv.call = asked k s.fwd)) := by
  have hsound := run_sound (start_sound hlen) ho hrun
  have hI : Attended s := run_invariant (fun _ _ _ hI hP hs => step_attended hI hP hs)
    (start_attended cbitmap cache) hdep hrun
  obtain ⟨done, skipped, hdone, hreplied, hskipped⟩ := (hI.replying k ps hps).queue
  have haccount := hI.accounted k
  rw [Accounted, pushedOf_of hps] at haccount
  refine ⟨haccount, ?_, hsound.linearizes hps, fun htx => ?_⟩
  · rw [hdone, hreplied, privs_append, privs_append, privs_append, List.append_assoc,
      List.append_assoc]
    exact List.prefix_append _ _
  have hreturned := ended_returned hsound hI.safe (hI.accounted k) hps htx
  refine ⟨hreturned, fun hskip => ?_⟩
  have hdrained := (hI.safe.sessions k ps hps).drained htx
  rw [← hreturned, hreplied, hdone, hskipped hskip, htx, hdrained]
  simp [unsent]

/-- A READ whose connection fails is asked again on the next one; then the client leaves. -/
theorem requests_answered_once_retried :
    ∃ s ps, run (Proxy.step twoBytes fun _ => 7) (start [0] fun _ => 0)
        (retried ++ disconnect) = some s ∧
      s.sessions[0]? = some ps ∧ ps.tx = .exited ∧ (asked 0 s.fwd).length = 1 ∧
      ps.replied.map Priv.call = asked 0 s.fwd := by
  have hdep : Along (Proxy.step twoBytes fun _ => 7) Departs (start [0] fun _ => 0)
      (retried ++ disconnect) := by decide
  have ho : Along (Proxy.step twoBytes fun _ => 7) Linear.Orderly (start [0] fun _ => 0)
      (retried ++ disconnect) := by decide
  have hmap : ((run (Proxy.step twoBytes fun _ => 7) (start [0] fun _ => 0)
      (retried ++ disconnect)).map fun s =>
        ((s.sessions[0]?).map fun ps => (ps.tx, ps.needSkip), (asked 0 s.fwd).length)) =
        some (some (.exited, false), 1) := by decide
  obtain ⟨s, hs, hproj⟩ := Option.map_eq_some_iff.mp hmap
  obtain ⟨hsession, hlen⟩ := Prod.mk.inj hproj
  obtain ⟨ps, hps, hend⟩ := Option.map_eq_some_iff.mp hsession
  obtain ⟨htx, hskip⟩ := Prod.mk.inj hend
  have h := requests_answered_once twoBytes (fun _ => 7) (fun _ => 0) [0] (by decide)
    (retried ++ disconnect) hdep ho s hs 0 ps hps
  exact ⟨s, ps, hs, hps, htx, hlen, (h.2.2.2 htx).2 hskip⟩

end Sessions

end Xnbd.Completion
