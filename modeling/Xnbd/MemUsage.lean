import Mathlib.Algebra.BigOperators.Group.Finset.Basic
import Mathlib.Algebra.Order.BigOperators.Group.Finset
import Xnbd.Teardown

/-!
# The memory accounts of the proxy (`xnbd_proxy.c`)

`mem_usage_add` runs in the rx threads and `mem_usage_del` in the tx threads,
and each derives the amount from the request it is given. A ledger beside the
process notes every request that is added and strikes out every request that is
removed; no step reads it.
-/
namespace Xnbd.MemUsage

open Block Bitmap Bytes Nbd Requests Forwarder Reference Transitions Pipeline Proxy Sessions Linear
  Teardown Places Run

variable {disksize : Nat}

/-- A request as the ledger knows it: its session and what it is charged. -/
structure Note where
  session : Nat
  charge : Nat
  deriving DecidableEq

def note (e : Entry disksize) : Option Note :=
  (session? e).map fun k => ⟨k, sizeofProxyPriv + buffer e⟩

def notes (q : List (Entry disksize)) : List Note := q.filterMap note

structure Books (disksize : Nat) where
  proxy : State disksize
  ledger : List Note

def total (ledger : List Note) : Nat := (ledger.map Note.charge).sum

/-- The request that the step passes to `mem_usage_add`. -/
def adding (s : State disksize) : Act disksize → List (Entry disksize)
  | .rx k _ =>
    match s.sessions[k]?.map Session.rx with
    | some (.add e) => [e]
    | _ => []
  | _ => []

/-- The request that the step passes to `mem_usage_del`. -/
def releasing (s : State disksize) : Act disksize → List (Entry disksize)
  | .tx k _ =>
    match s.sessions[k]?.map Session.tx with
    | some (.release e) => [e]
    | _ => []
  | _ => []

def entered (b : Books disksize) (a : Act disksize) : List Note :=
  (b.ledger ++ notes (adding b.proxy a)).diff (notes (releasing b.proxy a))

/-- A step of the process with its ledger. The requests lie in one address space,
so what they take together is below 2^64. -/
def step (cfg : Config disksize) (remote : File) (b : Books disksize) (a : Act disksize) :
    Option (Books disksize) :=
  (Proxy.step cfg remote b.proxy a).bind fun t =>
    if total (entered b a) < 2 ^ 64 then some ⟨t, entered b a⟩ else none

def opened (cbitmap : Words) (cache : File) : Books disksize := ⟨start cbitmap cache, []⟩

theorem step_proxy {cfg : Config disksize} {remote : File} {b c : Books disksize}
    {a : Act disksize} (h : step cfg remote b a = some c) :
    Proxy.step cfg remote b.proxy a = some c.proxy ∧ c.ledger = entered b a ∧
      total c.ledger < 2 ^ 64 := by
  simp only [step, Option.bind_eq_some_iff] at h
  obtain ⟨t, ht, hif⟩ := h
  split at hif
  · rename_i hfits
    cases hif
    exact ⟨ht, rfl, hfits⟩
  · cases hif

section Places

/-- What the rx thread has received and not pushed. -/
def rxEntry : SessionRx disksize → List (Entry disksize)
  | .wait e => [e]
  | .add e => [e]
  | .push e => [e]
  | _ => []

/-- What the rx thread has added and not pushed. -/
def rxAdded : SessionRx disksize → List (Entry disksize)
  | .push e => [e]
  | _ => []

def txEntry : SessionTx disksize → List (Entry disksize)
  | .send p => [.req p]
  | .release e => [e]
  | _ => []

/-- The requests of a session that are added, not removed and not with the
forwarder. -/
def atSession (ps : Session disksize) : List (Entry disksize) :=
  rxAdded ps.rx ++ ps.txQueue ++ txEntry ps.tx

def atSessions (s : State disksize) : List Note := s.sessions.flatMap fun ps => notes (atSession ps)

def parked (f : Fwd disksize) : List Note := notes (f.fwdRetryQueue.map .req)

theorem note_steady : Steady (note : Entry disksize → Option Note) where
  stop := rfl
  call p q h := by simp only [note, session?, buffer, h]

@[simp] theorem notes_nil : notes ([] : List (Entry disksize)) = [] := rfl

@[simp] theorem notes_append (a b : List (Entry disksize)) : notes (a ++ b) = notes a ++ notes b :=
  List.filterMap_append

theorem notes_of_session {e : Entry disksize} {k : Nat} (h : session? e = some k) :
    notes [e] = [⟨k, sizeofProxyPriv + buffer e⟩] := by
  simp [notes, note, h]

/-- One session changes. -/
theorem atSessions_set {s t : State disksize} {k : Nat} {ps ps' : Session disksize}
    (hps : s.sessions[k]? = some ps) (hset : t.sessions = s.sessions.set k ps') (n : Note) :
    (atSessions t).count n + (notes (atSession ps)).count n =
      (atSessions s).count n + (notes (atSession ps')).count n := by
  obtain ⟨hk, rfl⟩ := List.getElem?_eq_some_iff.mp hps
  have hsplit := List.take_append_drop k s.sessions
  rw [List.drop_eq_getElem_cons hk] at hsplit
  simp only [atSessions, hset, List.set_eq_take_append_cons_drop, if_pos hk]
  conv_rhs => rw [← hsplit]
  simp only [List.flatMap_append, List.flatMap_cons, List.count_append]
  omega

/-- What a step of the forwarder does to the notes of what it holds. -/
theorem forwarder_count {cfg : Config disksize} {remote : File} {f g : Fwd disksize}
    {a : Action disksize} (hc : Control f) (h : Forwarder.step cfg remote f a = some g)
    (hpush : ∀ e, a ≠ .push e)
    (hhand : ∀ ev e, a = .rx ev → f.rx = .hand e → notes [e] = []) (n : Note) :
    (seen note g).count n + (parked g).count n = (seen note f).count n + (parked f).count n := by
  cases trans_drift note_steady hc (step_trans h) with
  | same ht hr => rw [ht, parked, parked, hr]
  | enters e ha ht hr => exact absurd ha (hpush e)
  | hands ev e ha hrx ht hr =>
    have hnone := hhand ev e ha hrx
    rw [notes] at hnone
    rw [ht, hnone, List.nil_append, parked, parked, hr]
  | parks p p' ht hr hp =>
    rw [ht, parked, parked, hr]
    simp only [List.map_append, notes_append, List.count_append, List.map_cons, List.map_nil]
    have hsame : notes [Entry.req p'] = [Entry.req p].filterMap note := by
      simp only [notes, List.filterMap_cons, note_steady.call p' p hp]
    rw [hsame]
    omega
  | returns p ha ht hr hq =>
    have hsplit : notes (Entry.req p :: g.fwdRetryQueue.map Entry.req) =
        [Entry.req p].filterMap note ++ notes (g.fwdRetryQueue.map Entry.req) :=
      notes_append [Entry.req p] _
    rw [ht, parked, parked, hr, List.map_cons, hsplit, List.count_append, List.count_append]
    omega

end Places

section Balance

variable (cfg : Config disksize)

/-- The ledger agrees with the places where requests are, and the counters agree
with the ledger. -/
structure Balanced (b : Books disksize) : Prop where
  control : Control b.proxy.fwd
  own : ∀ k ps, b.proxy.sessions[k]? = some ps →
    ∀ e ∈ rxEntry ps.rx ++ ps.txQueue ++ txEntry ps.tx, session? e = some k
  places : ∀ n, b.ledger.count n = (atSessions b.proxy).count n +
    ((seen note b.proxy.fwd).count n + (parked b.proxy.fwd).count n)
  known : ∀ n ∈ b.ledger, n.session < b.proxy.sessions.length ∧ sizeofProxyPriv ≤ n.charge
  fits : total b.ledger < 2 ^ 64
  buf : cfg.maxBufSize ≠ 0 → b.proxy.curUseBuf = total b.ledger
  que : b.proxy.curUseQue = if cfg.maxQueSize = 0 then 0 else b.ledger.length

variable {cfg} {remote : File} {b : Books disksize} {t : State disksize} {a : Act disksize}

theorem length_le_total {ledger : List Note} (h : ∀ n ∈ ledger, sizeofProxyPriv ≤ n.charge) :
    ledger.length ≤ total ledger := by
  induction ledger with
  | nil => exact le_refl 0
  | cons n rest ih =>
    simp only [List.mem_cons, forall_eq_or_imp] at h
    have hrest := ih h.2
    have hn : 1 ≤ n.charge := Nat.le_trans (by decide) h.1
    simp only [total, List.map_cons, List.sum_cons, List.length_cons] at *
    omega

theorem total_erase {ledger : List Note} {n : Note} (h : n ∈ ledger) :
    n.charge + total (ledger.erase n) = total ledger := List.sum_map_erase Note.charge h

/-- The request a tx thread removes is in the ledger. -/
theorem Balanced.releasing_mem (h : Balanced cfg b) {k : Nat} {ps : Session disksize}
    {e : Entry disksize} (hps : b.proxy.sessions[k]? = some ps) (htx : ps.tx = .release e) :
    ⟨k, sizeofProxyPriv + buffer e⟩ ∈ b.ledger := by
  have hk : session? e = some k := h.own k ps hps e (by simp [htx, txEntry])
  have hmem : ⟨k, sizeofProxyPriv + buffer e⟩ ∈ atSessions b.proxy := by
    simp only [atSessions, List.mem_flatMap]
    refine ⟨ps, List.mem_of_getElem? hps, ?_⟩
    simp only [atSession, notes_append, htx, txEntry, notes_of_session hk, List.mem_append,
      List.mem_singleton, or_true]
  have hplaces := h.places ⟨k, sizeofProxyPriv + buffer e⟩
  have hpos := List.count_pos_iff.mpr hmem
  exact List.count_pos_iff.mp (by omega)

/-- A step that neither adds nor removes a request. -/
theorem Balanced.carry (h : Balanced cfg b) (hc : Control t.fwd)
    (hown : ∀ k ps, t.sessions[k]? = some ps →
      ∀ e ∈ rxEntry ps.rx ++ ps.txQueue ++ txEntry ps.tx, session? e = some k)
    (hlen : b.proxy.sessions.length ≤ t.sessions.length)
    (hplaces : ∀ n, (atSessions t).count n +
      ((seen note t.fwd).count n + (parked t.fwd).count n) = (atSessions b.proxy).count n +
        ((seen note b.proxy.fwd).count n + (parked b.proxy.fwd).count n))
    (hbuf : t.curUseBuf = b.proxy.curUseBuf) (hque : t.curUseQue = b.proxy.curUseQue) :
    Balanced cfg ⟨t, b.ledger⟩ where
  control := hc
  own := hown
  places n := (h.places n).trans (hplaces n).symm
  known n hn := ⟨Nat.lt_of_lt_of_le (h.known n hn).1 hlen, (h.known n hn).2⟩
  fits := h.fits
  buf hne := hbuf.trans (h.buf hne)
  que := hque.trans h.que

/-- One session changes and everything stays where it is known to the ledger. -/
theorem own_set {s t : State disksize} {k : Nat} {ps' : Session disksize}
    (h : ∀ k ps, s.sessions[k]? = some ps →
      ∀ e ∈ rxEntry ps.rx ++ ps.txQueue ++ txEntry ps.tx, session? e = some k)
    (hset : t.sessions = s.sessions.set k ps')
    (hown : ∀ e ∈ rxEntry ps'.rx ++ ps'.txQueue ++ txEntry ps'.tx, session? e = some k) :
    ∀ j ps, t.sessions[j]? = some ps →
      ∀ e ∈ rxEntry ps.rx ++ ps.txQueue ++ txEntry ps.tx, session? e = some j := by
  rw [hset]
  exact forall_set (fun j ps hj _ => h j ps hj) hown

/-- A session moves its own entries about. -/
theorem Balanced.session (h : Balanced cfg b) {k : Nat} {ps ps' : Session disksize}
    (hps : b.proxy.sessions[k]? = some ps) (hset : t.sessions = b.proxy.sessions.set k ps')
    (hf : t.fwd = b.proxy.fwd)
    (hown : ∀ e ∈ rxEntry ps'.rx ++ ps'.txQueue ++ txEntry ps'.tx, session? e = some k)
    (hsame : ∀ n, (notes (atSession ps')).count n = (notes (atSession ps)).count n)
    (hbuf : t.curUseBuf = b.proxy.curUseBuf) (hque : t.curUseQue = b.proxy.curUseQue) :
    Balanced cfg ⟨t, b.ledger⟩ := by
  refine h.carry (hf ▸ h.control) (own_set h.own hset hown) (by simp [hset]) (fun n => ?_) hbuf hque
  have hcount := atSessions_set hps hset n
  have := hsame n
  rw [hf]
  omega

theorem entered_quiet (hadd : adding b.proxy a = []) (hrel : releasing b.proxy a = []) :
    entered b a = b.ledger := by
  simp [entered, hadd, hrel]

/-- `mem_usage_add`. -/
theorem add_balanced (h : Balanced cfg b) {k : Nat} {arrival : Arrival} {ps : Session disksize}
    {e : Entry disksize} (hps : b.proxy.sessions[k]? = some ps) (hrx : ps.rx = .add e)
    (hfits : total (entered b (.rx k arrival)) < 2 ^ 64) :
    Balanced cfg ⟨(memUsageAdd cfg b.proxy e).setSession k { ps with rx := .push e },
      entered b (.rx k arrival)⟩ := by
  have hk : session? e = some k := h.own k ps hps e (by simp [hrx, rxEntry])
  have hlt := (List.getElem?_eq_some_iff.mp hps).1
  have hledger : entered b (.rx k arrival) = b.ledger ++ [⟨k, sizeofProxyPriv + buffer e⟩] := by
    simp [entered, adding, releasing, hps, hrx, notes_of_session hk]
  have htotal : total (entered b (.rx k arrival)) =
      total b.ledger + (sizeofProxyPriv + buffer e) := by
    simp [hledger, total]
  have hknown : ∀ n ∈ entered b (.rx k arrival), n.session < b.proxy.sessions.length ∧
      sizeofProxyPriv ≤ n.charge := by
    intro n hn
    rw [hledger, List.mem_append, List.mem_singleton] at hn
    cases hn with
    | inl hold => exact h.known n hold
    | inr hnew =>
      subst hnew
      exact ⟨hlt, by simp⟩
  have hcount := length_le_total fun n hn => (hknown n hn).2
  have hlength : (entered b (.rx k arrival)).length = b.ledger.length + 1 := by simp [hledger]
  have hset : ((memUsageAdd cfg b.proxy e).setSession k { ps with rx := .push e }).sessions =
      b.proxy.sessions.set k { ps with rx := .push e } := rfl
  have hpushed : ∀ n, (notes (atSession { ps with rx := .push e })).count n =
      [(⟨k, sizeofProxyPriv + buffer e⟩ : Note)].count n + (notes (atSession ps)).count n := by
    intro n
    simp only [atSession, rxAdded, hrx, notes_append, notes_of_session hk, List.count_append,
      notes_nil, List.count_nil]
    omega
  refine ⟨h.control, own_set h.own hset ?_, fun n => ?_, fun n hn => ?_, hfits, fun hne => ?_, ?_⟩
  · intro e' he'
    exact h.own k ps hps e' (by simpa [hrx, rxEntry] using he')
  · have hmoved := atSessions_set hps hset n
    have hplaces := h.places n
    have hp := hpushed n
    have hfwd : ((memUsageAdd cfg b.proxy e).setSession k { ps with rx := .push e }).fwd =
        b.proxy.fwd := rfl
    dsimp only
    rw [hledger, List.count_append, hfwd]
    omega
  · rw [hset, List.length_set]
    exact hknown n hn
  · simp only [State.setSession, memUsageAdd, if_neg hne, h.buf hne, htotal, ← Nat.add_assoc]
    exact Nat.mod_eq_of_lt (by omega)
  · simp only [State.setSession, memUsageAdd, h.que, hlength]
    by_cases hzero : cfg.maxQueSize = 0
    · simp [hzero]
    · simp only [if_neg hzero]
      exact Nat.mod_eq_of_lt (by omega)

/-- `mem_usage_del`. -/
theorem del_balanced (h : Balanced cfg b) {k : Nat} {sent : Bool} {ps : Session disksize}
    {e : Entry disksize} (hps : b.proxy.sessions[k]? = some ps) (htx : ps.tx = .release e) :
    Balanced cfg ⟨(memUsageDel cfg b.proxy e).setSession k
      { ps with tx := if isExit e then .exited else .pop }, entered b (.tx k sent)⟩ := by
  have hk : session? e = some k := h.own k ps hps e (by simp [htx, txEntry])
  have hmem := h.releasing_mem hps htx
  have hledger : entered b (.tx k sent) = b.ledger.erase ⟨k, sizeofProxyPriv + buffer e⟩ := by
    simp [entered, adding, releasing, hps, htx, notes_of_session hk]
  have htotal := total_erase hmem
  have hlength := List.length_erase_of_mem hmem
  have hpos := List.length_pos_of_mem hmem
  have hfits := h.fits
  have hcount := length_le_total fun n hn => (h.known n hn).2
  have hplace : txEntry (if isExit e then .exited else .pop : SessionTx disksize) = [] := by
    split <;> rfl
  have hset : ((memUsageDel cfg b.proxy e).setSession k
      { ps with tx := if isExit e then .exited else .pop }).sessions =
        b.proxy.sessions.set k { ps with tx := if isExit e then .exited else .pop } := rfl
  have hstruck : ∀ n, (notes (atSession ps)).count n =
      (notes (atSession { ps with tx := if isExit e then .exited else .pop })).count n +
        [(⟨k, sizeofProxyPriv + buffer e⟩ : Note)].count n := by
    intro n
    have hheld : txEntry (.release e : SessionTx disksize) = [e] := rfl
    simp only [atSession, hplace, htx, hheld, notes_append, notes_of_session hk,
      List.count_append, notes_nil, List.count_nil]
    omega
  simp only at htotal
  refine ⟨h.control, own_set h.own hset ?_, fun n => ?_, fun n hn => ?_, ?_, fun hne => ?_, ?_⟩
  · intro e' he'
    rw [hplace, List.append_nil] at he'
    exact h.own k ps hps e' (List.mem_append_left _ he')
  · have hmoved := atSessions_set hps hset n
    have hplaces := h.places n
    have hs := hstruck n
    have hfwd : ((memUsageDel cfg b.proxy e).setSession k
        { ps with tx := if isExit e then .exited else .pop }).fwd = b.proxy.fwd := rfl
    dsimp only
    rw [hledger, List.count_erase, hfwd]
    rw [List.count_singleton] at hs
    omega
  · rw [hledger] at hn
    rw [hset, List.length_set]
    exact h.known n (List.mem_of_mem_erase hn)
  · dsimp only
    rw [hledger]
    omega
  · rw [hledger]
    simp only [State.setSession, memUsageDel, if_neg hne, h.buf hne]
    omega
  · rw [hledger, hlength]
    simp only [State.setSession, memUsageDel, h.que]
    by_cases hzero : cfg.maxQueSize = 0
    · simp [hzero]
    · simp only [if_neg hzero]
      omega

/-- The tx thread of a session takes an entry from its queue and holds it. -/
theorem pop_balanced (h : Balanced cfg b) {k : Nat} {ps : Session disksize} {e : Entry disksize}
    {rest : List (Entry disksize)} {place : SessionTx disksize}
    (hps : b.proxy.sessions[k]? = some ps) (htx : ps.tx = .pop) (hq : ps.txQueue = e :: rest)
    (hplace : txEntry place = [e]) :
    Balanced cfg ⟨b.proxy.setSession k { ps with txQueue := rest, tx := place }, b.ledger⟩ := by
  have hpop : txEntry (.pop : SessionTx disksize) = [] := rfl
  refine h.session hps rfl rfl (fun e' he' => ?_) (fun n => ?_) rfl rfl
  · refine h.own k ps hps e' ?_
    simp only [hq, htx, hpop, hplace, List.mem_append, List.mem_cons, List.not_mem_nil] at he' ⊢
    tauto
  · have hsplit : notes (e :: rest) = notes [e] ++ notes rest := notes_append [e] rest
    simp only [atSession, hq, htx, hpop, hplace, notes_append, hsplit, List.count_append, notes_nil,
      List.count_nil]
    omega

/-- The rx thread of a session pushes what it has added. -/
theorem push_balanced (h : Balanced cfg b) {k : Nat} {ps : Session disksize} {e : Entry disksize}
    {f : Fwd disksize} (hps : b.proxy.sessions[k]? = some ps) (hrx : ps.rx = .push e)
    (hf : Forwarder.step cfg remote b.proxy.fwd (.push e) = some f) :
    Balanced cfg ⟨{ b.proxy with fwd := f }.setSession k
      { ps with rx := if isExit e then .exited else .recv }, b.ledger⟩ := by
  have hset : ({ b.proxy with fwd := f }.setSession k
      { ps with rx := if isExit e then .exited else .recv }).sessions =
        b.proxy.sessions.set k { ps with rx := if isExit e then .exited else .recv } := rfl
  have hnone : rxAdded (if isExit e then .exited else .recv : SessionRx disksize) = [] := by
    split <;> rfl
  refine h.carry (step_control h.control (step_trans hf)) (own_set h.own hset fun e' he' => ?_)
    (by simp [hset]) (fun n => ?_) rfl rfl
  · refine h.own k ps hps e' ?_
    have hempty : rxEntry (if isExit e then .exited else .recv : SessionRx disksize) = [] := by
      split <;> rfl
    rw [hempty, List.nil_append] at he'
    rw [List.append_assoc]
    exact List.mem_append_right _ he'
  · have hmoved := atSessions_set hps hset n
    obtain ⟨hseen, hparked⟩ := push_seen (m := note) hf
    have hpushed : rxAdded (.push e : SessionRx disksize) = [e] := rfl
    have hfwd : ({ b.proxy with fwd := f }.setSession k
      { ps with rx := if isExit e then .exited else .recv }).fwd = f := rfl
    simp only [atSession, hnone, hrx, hpushed, notes_append, List.count_append, notes_nil,
      List.count_nil] at hmoved
    have hone : [e].filterMap note = notes [e] := rfl
    dsimp only at hmoved ⊢
    rw [hfwd, hseen, parked, parked, hparked, List.count_append, hone]
    omega

/-- `forwarder_rx` hands an entry to its session. -/
theorem hand_balanced (h : Balanced cfg b) {k : Nat} {ps : Session disksize} {e : Entry disksize}
    {ev : RecvEvent} {f : Fwd disksize} (hps : b.proxy.sessions[k]? = some ps)
    (hk : session? e = some k) (hf : Forwarder.step cfg remote b.proxy.fwd (.rx ev) = some f)
    (hrx : b.proxy.fwd.rx = .hand e) :
    Balanced cfg ⟨{ b.proxy with fwd := f, pushedFreed := ps.freed }.setSession k
      { ps with txQueue := ps.txQueue ++ [e], pushed := ps.pushed ++ [e] }, b.ledger⟩ := by
  have hset : ({ b.proxy with fwd := f, pushedFreed := ps.freed }.setSession k
      { ps with txQueue := ps.txQueue ++ [e], pushed := ps.pushed ++ [e] }).sessions =
        b.proxy.sessions.set k
          { ps with txQueue := ps.txQueue ++ [e], pushed := ps.pushed ++ [e] } := rfl
  refine h.carry (step_control h.control (step_trans hf)) (own_set h.own hset fun e' he' => ?_)
    (by simp [hset]) (fun n => ?_) rfl rfl
  · simp only [List.mem_append, List.mem_singleton] at he'
    by_cases heq : e' = e
    · rw [heq, hk]
    · refine h.own k ps hps e' ?_
      simp only [List.mem_append]
      tauto
  · have hmoved := atSessions_set hps hset n
    obtain ⟨hseen, hparked⟩ := hand_seen (m := note) hf hrx
    have hfwd : ({ b.proxy with fwd := f, pushedFreed := ps.freed }.setSession k
      { ps with txQueue := ps.txQueue ++ [e], pushed := ps.pushed ++ [e] }).fwd = f := rfl
    simp only [atSession, notes_append, List.count_append] at hmoved
    have hone : [e].filterMap note = notes [e] := rfl
    dsimp only at hmoved ⊢
    rw [hfwd, hseen, parked, parked, hparked, List.count_append, hone]
    omega

/-- Every step keeps the balance. -/
theorem move_balanced (h : Balanced cfg b) (hm : Move cfg remote b.proxy a t)
    (hfits : total (entered b a) < 2 ^ 64) : Balanced cfg ⟨t, entered b a⟩ := by
  cases hm with
  | register hmain =>
    rw [entered_quiet rfl rfl]
    refine h.carry h.control ?_ (by simp) (fun n => ?_) rfl rfl
    · apply forall_append h.own
      simp [Session.new, rxEntry, txEntry]
    · simp [atSessions, atSession, Session.new, rxAdded, txEntry]
  | cleanup k ps hps hrx htx hq =>
    rw [entered_quiet rfl rfl]
    exact h.session hps rfl rfl (h.own k ps hps) (fun n => rfl) rfl rfl
  | cleanupFails k ps hps htx hq =>
    rw [entered_quiet rfl rfl]
    exact h.carry h.control h.own (le_refl _) (fun n => rfl) rfl rfl
  | rxRecv k arrival ps e hps hrx hk hf =>
    rw [entered_quiet (by simp [adding, hps, hrx]) rfl]
    refine h.session hps rfl rfl (fun e' he' => ?_) (fun n => ?_) rfl rfl
    · simp only [List.mem_append, or_assoc] at he'
      cases he' with
      | inl hnew =>
        split at hnew <;> simp only [rxEntry, List.mem_singleton] at hnew <;> rw [hnew, hk]
      | inr hold => exact h.own k ps hps e' (by simpa only [List.mem_append, or_assoc] using .inr hold)
    · have hnone : rxAdded (if isExit e then .add e else .wait e : SessionRx disksize) = [] := by
        split <;> rfl
      have hrecv : rxAdded (.recv : SessionRx disksize) = [] := rfl
      simp only [atSession, hnone, hrx, hrecv]
  | rxWait k arrival ps e hps hrx hwait =>
    rw [entered_quiet (by simp [adding, hps, hrx]) rfl]
    refine h.session hps rfl rfl (fun e' he' => ?_) (fun n => ?_) rfl rfl
    · exact h.own k ps hps e' (by simpa [hrx, rxEntry] using he')
    · simp only [atSession, hrx, rxAdded]
  | rxAdd k arrival ps e hps hrx => exact add_balanced h hps hrx hfits
  | rxPush k arrival ps e f hps hrx hf =>
    rw [entered_quiet (by simp [adding, hps, hrx]) rfl]
    exact push_balanced h hps hrx hf
  | txPopSend k sent ps p rest hps htx hq hskip =>
    rw [entered_quiet rfl (by simp [releasing, hps, htx])]
    exact pop_balanced h hps htx hq rfl
  | txPopSkip k sent ps e rest hps htx hq =>
    rw [entered_quiet rfl (by simp [releasing, hps, htx])]
    exact pop_balanced h hps htx hq rfl
  | txSend k sent ps p hps htx =>
    rw [entered_quiet rfl (by simp [releasing, hps, htx])]
    refine h.session hps rfl rfl (fun e' he' => ?_) (fun n => ?_) rfl rfl
    · exact h.own k ps hps e' (by simpa [htx, txEntry] using he')
    · simp only [atSession, htx, txEntry]
  | txRelease k sent ps e hps htx => exact del_balanced h hps htx
  | hand ev e k ps f hf hrx hk hps =>
    rw [entered_quiet rfl rfl]
    exact hand_balanced h hps hk hf hrx
  | forward fa f hf ha hno =>
    rw [entered_quiet rfl rfl]
    refine h.carry (step_control h.control (step_trans hf)) h.own (le_refl _) (fun n => ?_) rfl rfl
    have hcount := forwarder_count h.control hf ha (fun ev e hev hrx => ?_) n
    · exact congrArg ((atSessions b.proxy).count n + ·) hcount
    · -- an entry that is handed over belongs to a registered session
      cases hk : session? e with
      | none => simp [notes, note, hk]
      | some k =>
        have hmem : ⟨k, sizeofProxyPriv + buffer e⟩ ∈ seen note b.proxy.fwd := by
          rw [(hand_seen (m := note) (hev ▸ hf) hrx).1]
          exact List.mem_append_left _ (by simp [note, hk])
        have hplaces := h.places ⟨k, sizeofProxyPriv + buffer e⟩
        have hpos := List.count_pos_iff.mpr hmem
        have hledger : 0 < b.ledger.count ⟨k, sizeofProxyPriv + buffer e⟩ := by omega
        have hlt := (h.known _ (List.count_pos_iff.mp hledger)).1
        have hnone := hno e k (by rw [hev]; simp [handing, hrx]) hk
        rw [List.getElem?_eq_none_iff] at hnone
        simp only at hlt
        omega

end Balance

theorem step_balanced {cfg : Config disksize} {remote : File} {b c : Books disksize}
    {a : Act disksize} (h : Balanced cfg b) (hs : step cfg remote b a = some c) :
    Balanced cfg c := by
  obtain ⟨hproxy, hledger, hfits⟩ := step_proxy hs
  obtain ⟨t, ledger⟩ := c
  simp only at hproxy hledger hfits
  subst hledger
  exact move_balanced h (step_move hproxy).2 hfits

theorem opened_balanced (cfg : Config disksize) (cbitmap : Words) (cache : File) :
    Balanced cfg (opened cbitmap cache) where
  control := initial_control cbitmap cache
  own k ps hk := by simp [opened, start] at hk
  places n := rfl
  known n hn := by simp [opened] at hn
  fits := by simp [opened, total]
  buf _ := rfl
  que := by simp [opened, start]

section Bound

/-- 1 while a request has passed `mem_usage_wait` and is not added. -/
def due : SessionRx disksize → Nat
  | .add e => if isExit e then 0 else 1
  | _ => 0

/-- What a session may hold above the limit: one request that has passed
`mem_usage_wait`, and the exit entry, which does not wait. -/
def allowance : SessionRx disksize → Nat
  | .push e => if isExit e then 2 else 1
  | .exited => 2
  | _ => 1

/-- A count of session `k`, 0 if there is none. -/
def tally (v : SessionRx disksize → Nat) (s : State disksize) (k : Nat) : Nat :=
  ((s.sessions[k]?).map fun ps => v ps.rx).getD 0

/-- However many sessions are looked at, they hold at most the limit and their
allowances. The set is arbitrary so that a session can be left out when it is
freed. -/
def Bounded (cfg : Config disksize) (b : Books disksize) : Prop :=
  ∀ S : Finset Nat, b.ledger.countP (fun n => n.session ∈ S) + ∑ k ∈ S, tally due b.proxy k ≤
    cfg.maxQueSize + ∑ k ∈ S, tally allowance b.proxy k

variable {cfg : Config disksize} {remote : File} {b : Books disksize} {t : State disksize}
  {a : Act disksize} {k : Nat} {ps ps' : Session disksize}

theorem tally_set (v : SessionRx disksize → Nat) {s : State disksize}
    (hps : s.sessions[k]? = some ps) (hset : t.sessions = s.sessions.set k ps') (j : Nat) :
    tally v t j = if j = k then v ps'.rx else tally v s j := by
  have hlt := (List.getElem?_eq_some_iff.mp hps).1
  simp only [tally, hset, List.getElem?_set]
  by_cases hj : j = k
  · subst hj
    simp [hlt]
  · have hne : ¬k = j := fun h => hj h.symm
    simp [hj, hne]

theorem tally_self (v : SessionRx disksize → Nat) {s : State disksize}
    (hps : s.sessions[k]? = some ps) : tally v s k = v ps.rx := by
  simp [tally, hps]

/-- A sum changes by what one of its terms changes. -/
theorem sum_tally_set (v : SessionRx disksize → Nat) {s : State disksize}
    (hps : s.sessions[k]? = some ps) (hset : t.sessions = s.sessions.set k ps') (S : Finset Nat) :
    (∑ j ∈ S, tally v t j) + (if k ∈ S then v ps.rx else 0) =
      (∑ j ∈ S, tally v s j) + if k ∈ S then v ps'.rx else 0 := by
  induction S using Finset.induction_on with
  | empty => simp
  | insert j S hj ih =>
    rw [Finset.sum_insert hj, Finset.sum_insert hj, tally_set v hps hset j]
    by_cases hjk : j = k
    · subst hjk
      have hself := tally_self v hps
      simp only [hj, if_false, Finset.mem_insert_self, if_true] at ih ⊢
      omega
    · have hmem : (k ∈ insert j S) = (k ∈ S) := by
        simp [Finset.mem_insert, Ne.symm hjk]
      simp only [hmem, if_neg hjk]
      omega

/-- One session's rx thread moves. -/
theorem Bounded.set (h : Bounded cfg b) {ledger : List Note}
    (hps : b.proxy.sessions[k]? = some ps) (hset : t.sessions = b.proxy.sessions.set k ps')
    (hrx : ∀ S : Finset Nat, ledger.countP (fun n => n.session ∈ S) +
        (if k ∈ S then due ps'.rx + allowance ps.rx else 0) ≤
      b.ledger.countP (fun n => n.session ∈ S) +
        if k ∈ S then due ps.rx + allowance ps'.rx else 0) :
    Bounded cfg ⟨t, ledger⟩ := by
  intro S
  have hold := h S
  have hdue := sum_tally_set due hps hset S
  have hall := sum_tally_set allowance hps hset S
  have hmove := hrx S
  dsimp only
  by_cases hk : k ∈ S
  · simp only [if_pos hk] at hdue hall hmove
    omega
  · simp only [if_neg hk] at hdue hall hmove
    omega

/-- Nothing of an rx thread changes. -/
theorem Bounded.same (h : Bounded cfg b) {ledger : List Note}
    (hps : b.proxy.sessions[k]? = some ps) (hset : t.sessions = b.proxy.sessions.set k ps')
    (hrx : ps'.rx = ps.rx) (hsub : ledger.Sublist b.ledger) : Bounded cfg ⟨t, ledger⟩ := by
  refine h.set hps hset fun S => ?_
  have hcount := hsub.countP_le (p := fun n => decide (n.session ∈ S))
  rw [hrx]
  split <;> omega

theorem Bounded.sessions (h : Bounded cfg b) (ht : t.sessions = b.proxy.sessions) :
    Bounded cfg ⟨t, b.ledger⟩ := by
  intro S
  have hold := h S
  simp only [tally, ht] at hold ⊢
  exact hold

/-- The limit holds when `mem_usage_wait` returns, whoever else is on the way. -/
theorem wait_bounded (hb : Balanced cfg b) (hfits : MemUsageFits cfg b.proxy)
    (hne : cfg.maxQueSize ≠ 0) (e : Entry disksize) :
    Bounded cfg ⟨b.proxy.setSession k { ps with rx := .add e }, b.ledger⟩ := by
  intro S
  have hque := hb.que
  rw [if_neg hne] at hque
  have hlimit := hfits.2 hne
  have hcount := @List.countP_le_length _ (fun n : Note => decide (n.session ∈ S)) b.ledger
  have hterm : ∀ j ∈ S, tally due (b.proxy.setSession k { ps with rx := .add e }) j ≤
      tally allowance (b.proxy.setSession k { ps with rx := .add e }) j := by
    intro j _
    simp only [tally]
    cases (b.proxy.setSession k { ps with rx := .add e }).sessions[j]? with
    | none => exact le_refl 0
    | some ps' =>
      simp only [Option.map_some, Option.getD_some]
      cases ps'.rx with
      | add e' =>
        simp only [due, allowance]
        split <;> omega
      | _ => simp [due]
  have hsum := Finset.sum_le_sum hterm
  dsimp only
  omega

theorem register_bounded (h : Bounded cfg b)
    (ht : t.sessions = b.proxy.sessions ++ [.new]) : Bounded cfg ⟨t, b.ledger⟩ := by
  intro S
  have hold := h S
  have hdue : ∀ j ∈ S, tally due t j ≤ tally due b.proxy j := by
    intro j _
    simp only [tally, ht, List.getElem?_append]
    split
    · exact le_refl _
    · rw [List.getElem?_singleton]
      split
      · exact Nat.zero_le _
      · exact Nat.zero_le _
  have hall : ∀ j ∈ S, tally allowance b.proxy j ≤ tally allowance t j := by
    intro j _
    simp only [tally, ht, List.getElem?_append]
    split
    · exact le_refl _
    · rename_i hge
      rw [List.getElem?_eq_none (by omega)]
      exact Nat.zero_le _
  have hless := Finset.sum_le_sum hdue
  have hmore := Finset.sum_le_sum hall
  dsimp only
  omega

theorem add_bounded (h : Bounded cfg b) (hb : Balanced cfg b) {arrival : Arrival}
    {e : Entry disksize} (hps : b.proxy.sessions[k]? = some ps) (hrx : ps.rx = .add e) :
    Bounded cfg ⟨(memUsageAdd cfg b.proxy e).setSession k { ps with rx := .push e },
      entered b (.rx k arrival)⟩ := by
  have hk : session? e = some k := hb.own k ps hps e (by simp [hrx, rxEntry])
  have hledger : entered b (.rx k arrival) = b.ledger ++ [⟨k, sizeofProxyPriv + buffer e⟩] := by
    simp [entered, adding, releasing, hps, hrx, notes_of_session hk]
  rw [hledger]
  refine h.set hps rfl fun S => ?_
  simp only [List.countP_append, List.countP_singleton, decide_eq_true_eq, hrx, due, allowance]
  by_cases hmem : k ∈ S
  · simp only [if_pos hmem]
    split <;> omega
  · simp [if_neg hmem]

theorem move_bounded (h : Bounded cfg b) (hb : Balanced cfg b) (hne : cfg.maxQueSize ≠ 0)
    (hm : Move cfg remote b.proxy a t) : Bounded cfg ⟨t, entered b a⟩ := by
  cases hm with
  | register hmain =>
    rw [entered_quiet rfl rfl]
    exact register_bounded h rfl
  | cleanup k ps hps hrx htx hq =>
    rw [entered_quiet rfl rfl]
    exact h.same hps rfl rfl (List.Sublist.refl _)
  | cleanupFails k ps hps htx hq =>
    rw [entered_quiet rfl rfl]
    exact h.sessions rfl
  | rxRecv k arrival ps e hps hrx hk hf =>
    rw [entered_quiet (by simp [adding, hps, hrx]) rfl]
    refine h.set hps rfl fun S => ?_
    have hplace : due (if isExit e then .add e else .wait e : SessionRx disksize) = 0 ∧
        allowance (if isExit e then .add e else .wait e : SessionRx disksize) = 1 := by
      by_cases he : isExit e = true
      · simp [he, due, allowance]
      · simp [he, due, allowance]
    have hrecv : due (.recv : SessionRx disksize) = 0 ∧
        allowance (.recv : SessionRx disksize) = 1 := ⟨rfl, rfl⟩
    simp only [hrx, hplace.1, hplace.2, hrecv.1, hrecv.2]
    omega
  | rxWait k arrival ps e hps hrx hfits =>
    rw [entered_quiet (by simp [adding, hps, hrx]) rfl]
    exact wait_bounded hb hfits hne e
  | rxAdd k arrival ps e hps hrx => exact add_bounded h hb hps hrx
  | rxPush k arrival ps e f hps hrx hf =>
    rw [entered_quiet (by simp [adding, hps, hrx]) rfl]
    refine h.set hps rfl fun S => ?_
    by_cases he : isExit e = true
    · simp only [hrx, he, if_true, due, allowance]
      omega
    · simp only [hrx, he, due, allowance]
      simp
  | txPopSend k sent ps p rest hps htx hq hskip =>
    rw [entered_quiet rfl (by simp [releasing, hps, htx])]
    exact h.same hps rfl rfl (List.Sublist.refl _)
  | txPopSkip k sent ps e rest hps htx hq =>
    rw [entered_quiet rfl (by simp [releasing, hps, htx])]
    exact h.same hps rfl rfl (List.Sublist.refl _)
  | txSend k sent ps p hps htx =>
    rw [entered_quiet rfl (by simp [releasing, hps, htx])]
    exact h.same hps rfl rfl (List.Sublist.refl _)
  | txRelease k sent ps e hps htx =>
    have hsub : (entered b (.tx k sent)).Sublist b.ledger := by
      simp only [entered, adding, notes_nil, List.append_nil]
      exact List.diff_sublist _ _
    exact h.same hps rfl rfl hsub
  | hand ev e k ps f hf hrx hk hps =>
    rw [entered_quiet rfl rfl]
    exact h.same hps rfl rfl (List.Sublist.refl _)
  | forward fa f hf ha hno =>
    rw [entered_quiet rfl rfl]
    exact h.sessions rfl

end Bound

section Quiet

variable {cfg : Config disksize} {remote : File} {R : RefDisk} {b c : Books disksize}
  {a : Act disksize}

/-- What holds without remote failures: the accounts, and an orderly teardown. -/
structure Smooth (cfg : Config disksize) (remote : File) (R : RefDisk) (b : Books disksize) :
    Prop where
  balanced : Balanced cfg b
  bounded : cfg.maxQueSize ≠ 0 → Bounded cfg b
  sound : Sound cfg remote R b.proxy ∧ Quiet b.proxy.fwd
  safe : Safe b.proxy

/-- Without parked requests no exit entry passes one. -/
theorem departs_of_quiet {s : State disksize} (h : Quiet s.fwd) (a : Act disksize) :
    Departs s a := by
  cases a with
  | fwd fa =>
    cases fa with
    | rx ev =>
      intro k _ p hp
      rw [h.unparked] at hp
      cases hp
    | requeue =>
      intro p hp
      rw [h.unparked] at hp
      cases hp
    | _ => trivial
  | _ => trivial

theorem step_smooth (h : Smooth cfg remote R b) (hno : remoteFailure a = false)
    (hs : step cfg remote b a = some c) : Smooth cfg remote R c := by
  obtain ⟨hproxy, hledger, hfits⟩ := step_proxy hs
  have hmove := (step_move hproxy).2
  refine ⟨step_balanced h.balanced hs, fun hne => ?_, step_sound_quiet h.sound hno hproxy,
    move_safe h.safe (departs_of_quiet h.sound.2 a) hmove⟩
  have hbounded := move_bounded (h.bounded hne) h.balanced hne hmove
  rw [← hledger] at hbounded
  exact hbounded

theorem mem_notes {q : List (Entry disksize)} {n : Note} (h : n ∈ notes q) :
    ∃ e ∈ q, session? e = some n.session := by
  obtain ⟨e, he, hnote⟩ := List.mem_filterMap.mp h
  obtain ⟨k, hk, rfl⟩ := Option.map_eq_some_iff.mp hnote
  exact ⟨e, he, hk⟩

/-- A freed session has nothing left, neither with itself nor on its way. -/
theorem Quitting.empty {f : Fwd disksize} {k : Nat} {ps : Session disksize}
    (h : Quitting f k ps) (hfreed : ps.freed = true) : atSession ps = [] ∧ Absent f k := by
  have htx := h.freed hfreed
  obtain ⟨done, hdone, hmem⟩ := h.done (.inl htx)
  have harrived : true ∈ ps.pushed.map isExit := by
    rw [hdone, List.map_append]
    exact List.mem_append_left _ hmem
  obtain ⟨hrx, habsent⟩ := h.arrived harrived
  exact ⟨by simp [atSession, hrx, htx, rxAdded, txEntry, h.drained htx], habsent⟩

/-- The ledger has nothing of a freed session. -/
theorem Smooth.freed (h : Smooth cfg remote R b) {k : Nat} {ps : Session disksize}
    (hps : b.proxy.sessions[k]? = some ps) (hfreed : ps.freed = true) :
    ∀ n ∈ b.ledger, n.session ≠ k := by
  intro n hn hk
  obtain ⟨hempty, habsent⟩ := Quitting.empty (h.safe.sessions k ps hps) hfreed
  have hplaces := h.balanced.places n
  have hpos := List.count_pos_iff.mpr hn
  by_cases hat : n ∈ atSessions b.proxy
  · obtain ⟨ps', hmem, hnote⟩ := List.mem_flatMap.mp hat
    obtain ⟨j, hj⟩ := List.mem_iff_getElem?.mp hmem
    obtain ⟨e, he, hsession⟩ := mem_notes hnote
    have hown := h.balanced.own j ps' hj e (by
      simp only [atSession, List.mem_append] at he ⊢
      refine he.imp_left fun hleft => hleft.imp_left fun hadded => ?_
      cases hrx : ps'.rx with
      | push e' =>
        rw [hrx] at hadded
        exact hadded
      | _ =>
        rw [hrx] at hadded
        cases hadded)
    have hjk : j = k := by
      rw [hsession] at hown
      exact (Option.some.inj hown).symm.trans hk
    subst hjk
    rw [hps] at hj
    cases hj
    rw [hempty] at he
    cases he
  · by_cases hseen : n ∈ seen note b.proxy.fwd
    · obtain ⟨e, he, hsession⟩ := mem_notes hseen
      have hmark : isExit e ∈ trail k b.proxy.fwd :=
        List.mem_filterMap.mpr ⟨e, he, mark_own (hk ▸ hsession)⟩
      rw [habsent.trail] at hmark
      cases hmark
    · have hparked : 0 < (parked b.proxy.fwd).count n := by
        have hzero := List.count_eq_zero.mpr hat
        have hnone := List.count_eq_zero.mpr hseen
        omega
      obtain ⟨e, he, -⟩ := mem_notes (List.count_pos_iff.mp hparked)
      rw [h.sound.2.unparked] at he
      cases he

/-- The sessions that are registered and not cleaned up. -/
def registered (s : State disksize) : Nat := s.sessions.countP fun ps => !ps.freed

theorem card_filter_range (l : List (Session disksize)) :
    ((Finset.range l.length).filter fun k => ∃ ps, l[k]? = some ps ∧ ps.freed = false).card =
      l.countP fun ps => !ps.freed := by
  induction l using List.reverseRecOn with
  | nil => rfl
  | append_singleton rest ps ih =>
    have hrest : ((Finset.range rest.length).filter fun k =>
        ∃ q, (rest ++ [ps])[k]? = some q ∧ q.freed = false) =
        (Finset.range rest.length).filter fun k => ∃ q, rest[k]? = some q ∧ q.freed = false := by
      apply Finset.filter_congr
      intro k hk
      rw [List.getElem?_append_left (Finset.mem_range.mp hk)]
    have hlast : (∃ q, (rest ++ [ps])[rest.length]? = some q ∧ q.freed = false) ↔
        ps.freed = false := by
      simp
    rw [List.length_append, List.length_singleton, Finset.range_add_one, Finset.filter_insert,
      hrest, List.countP_append, ← ih]
    by_cases hfreed : ps.freed = false
    · rw [if_pos (hlast.mpr hfreed), Finset.card_insert_of_notMem (by simp)]
      simp [hfreed]
    · rw [if_neg fun h => hfreed (hlast.mp h)]
      simp [hfreed]

/-- The queue limit, with two requests for every session that is left. -/
theorem Smooth.limit (h : Smooth cfg remote R b) :
    b.proxy.curUseQue ≤ cfg.maxQueSize + 2 * registered b.proxy := by
  have hque := h.balanced.que
  by_cases hne : cfg.maxQueSize = 0
  · rw [if_pos hne] at hque
    omega
  rw [if_neg hne] at hque
  have hS := h.bounded hne ((Finset.range b.proxy.sessions.length).filter fun k =>
    ∃ ps, b.proxy.sessions[k]? = some ps ∧ ps.freed = false)
  have hall : b.ledger.countP (fun n => n.session ∈
      (Finset.range b.proxy.sessions.length).filter fun k =>
        ∃ ps, b.proxy.sessions[k]? = some ps ∧ ps.freed = false) = b.ledger.length := by
    rw [List.countP_eq_length]
    intro n hn
    have hlt := (h.balanced.known n hn).1
    simp only [Finset.mem_filter, Finset.mem_range, decide_eq_true_eq]
    refine ⟨hlt, _, List.getElem?_eq_getElem hlt, ?_⟩
    by_contra hfreed
    exact h.freed (List.getElem?_eq_getElem hlt) (by simpa using hfreed) n hn rfl
  have htwo : ∀ k ∈ (Finset.range b.proxy.sessions.length).filter (fun k =>
      ∃ ps, b.proxy.sessions[k]? = some ps ∧ ps.freed = false),
      tally allowance b.proxy k ≤ 2 := by
    intro k _
    simp only [tally]
    cases b.proxy.sessions[k]? with
    | none => exact Nat.zero_le 2
    | some ps =>
      simp only [Option.map_some, Option.getD_some]
      cases ps.rx with
      | push e =>
        simp only [allowance]
        split <;> omega
      | _ => simp [allowance]
  have hsum := Finset.sum_le_sum htwo
  rw [Finset.sum_const_nat fun _ _ => rfl, card_filter_range] at hsum
  rw [hall] at hS
  rw [registered]
  omega

end Quiet


/-- What the counters say about the requests that are added and not removed. -/
structure Accounts (cfg : Config disksize) (b : Books disksize) : Prop where
  buf : cfg.maxBufSize ≠ 0 → b.proxy.curUseBuf = total b.ledger
  que : cfg.maxQueSize ≠ 0 → b.proxy.curUseQue = b.ledger.length
  covered : ∀ (k : Nat) (ps : Session disksize) (e : Entry disksize),
    b.proxy.sessions[k]? = some ps → ps.tx = .release e →
    (cfg.maxBufSize ≠ 0 → sizeofProxyPriv + buffer e ≤ b.proxy.curUseBuf) ∧
      (cfg.maxQueSize ≠ 0 → 1 ≤ b.proxy.curUseQue)
  settled : b.ledger = [] → (cfg.maxBufSize ≠ 0 → b.proxy.curUseBuf = 0) ∧
    (cfg.maxQueSize ≠ 0 → b.proxy.curUseQue = 0)

theorem Balanced.accounts {cfg : Config disksize} {b : Books disksize} (h : Balanced cfg b) :
    Accounts cfg b := by
  have hque : cfg.maxQueSize ≠ 0 → b.proxy.curUseQue = b.ledger.length := by
    intro hne
    rw [h.que, if_neg hne]
  refine ⟨h.buf, hque, fun k ps e hps htx => ?_, fun hempty => ?_⟩
  · have hmem := h.releasing_mem hps htx
    constructor
    · intro hne
      have hcharge := total_erase hmem
      rw [h.buf hne]
      dsimp only at hcharge
      omega
    · intro hne
      rw [hque hne]
      exact List.length_pos_of_mem hmem
  · constructor
    · intro hne
      rw [h.buf hne, hempty]
      rfl
    · intro hne
      rw [hque hne, hempty]
      rfl

/-- In every run the counters are the sum over the requests that were added and
not removed, and their number; without remote failures the number stays within
the limit and two requests for every session that is not cleaned up. -/
theorem mem_usage_accounts (cfg : Config disksize) (remote cache : File) (cbitmap : Words)
    (hlen : cbitmap.length = bitsToLongs (getDiskNblocks disksize)) (acts : List (Act disksize))
    (b : Books disksize) (hrun : run (step cfg remote) (opened cbitmap cache) acts = some b) :
    Accounts cfg b ∧ ((∀ a ∈ acts, remoteFailure a = false) →
      b.proxy.curUseQue ≤ cfg.maxQueSize + 2 * registered b.proxy) := by
  constructor
  · have hbalanced : Balanced cfg b := run_invariant (fun _ _ _ h _ hs => step_balanced h hs)
      (opened_balanced cfg cbitmap cache) (along_true _ (opened cbitmap cache) acts) hrun
    exact hbalanced.accounts
  · intro hno
    have hstart : Smooth cfg remote (refOf cbitmap cache remote) (opened cbitmap cache) :=
      ⟨opened_balanced cfg cbitmap cache, fun _ S => by simp [opened, start, tally],
        ⟨start_sound hlen, rfl, rfl, rfl⟩, start_safe cbitmap cache⟩
    have hsmooth : Smooth cfg remote (refOf cbitmap cache remote) b :=
      run_invariant (P := fun _ a => remoteFailure a = false)
        (fun _ _ _ h hp hs => step_smooth h hp hs) hstart (along_forall hno) hrun
    exact hsmooth.limit

section Example

/-- Two bytes, with both limits in use. -/
def limited : Config 2 := ⟨4096, false, 4096, 1, Nat.two_pos, two_le_offMax, page_pos, page_le⟩

/-- A READ is on its way to the forwarder when its client disconnects. -/
def readAndLeave : List (Act 2) :=
  .register :: submit 0 readFirst none ++ [.rx 0 .broken, .rx 0 .broken]

theorem mem_usage_accounts_read :
    ∃ b, run (step limited fun _ => 7) (opened [0] fun _ => 0) readAndLeave = some b ∧
      b.ledger = [⟨0, 625⟩, ⟨0, 624⟩] ∧ b.proxy.curUseBuf = 1249 ∧ b.proxy.curUseQue ≤ 3 := by
  have hmap : (run (step limited fun _ => 7) (opened [0] fun _ => 0) readAndLeave).map
      (fun b => (b.ledger, registered b.proxy)) = some ([⟨0, 625⟩, ⟨0, 624⟩], 1) := by decide
  obtain ⟨b, hb, hpair⟩ := Option.map_eq_some_iff.mp hmap
  obtain ⟨hledger, hone⟩ := Prod.mk.inj hpair
  obtain ⟨haccounts, hlimit⟩ := mem_usage_accounts limited (fun _ => 7) (fun _ => 0) [0]
    (by decide) readAndLeave b hb
  have hbuf := haccounts.buf (by decide)
  have hque := hlimit (by decide)
  rw [hledger] at hbuf
  rw [hone] at hque
  exact ⟨b, hb, hledger, hbuf, hque⟩

end Example

end Xnbd.MemUsage
