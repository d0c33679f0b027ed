import Xnbd.Run

/-!
# Conversations over a connection

Two parties talk over a connection with one stream in each direction. A party
sends, waits for a number of symbols, or is done. Neither sees when the other one
runs, so what they come to does not depend on the order in which they take their
steps.
-/
namespace Xnbd.Dialogue

open Run

variable {β α γ : Type}

/-- `send` is told whether the connection took all symbols; `recv` gets the number
of symbols it asked for, or fewer when the peer has closed the connection. -/
inductive Party (β α : Type) where
  | ret (a : α)
  | send (symbols : List β) (next : Bool → Party β α)
  | recv (n : Nat) (next : List β → Party β α)

namespace Party

def bind : Party β α → (α → Party β γ) → Party β γ
  | ret a, f => f a
  | send symbols next, f => send symbols fun ok => (next ok).bind f
  | recv n next, f => recv n fun got => (next got).bind f

/-- What a party comes to when its peer sends the input and closes. -/
def hear : Party β α → List β → α
  | ret a, _ => a
  | send _ next, input => (next true).hear input
  | recv n next, input => (next (input.take n)).hear (input.drop n)

/-- A party that gives up where a test fails has passed it when it comes to something. -/
theorem hear_guard {c : Prop} [Decidable c] {p : Party β (Option α)} {input : List β} {a : α}
    (h : (if c then ret none else p).hear input = some a) : ¬c ∧ p.hear input = some a := by
  split at h
  · cases h
  · rename_i hc
    exact ⟨hc, h⟩

/-- A step of a party on an open connection: what becomes of it, what is left of
its input, and what it sends. -/
def move : Party β α → List β → Option (Party β α × List β × List β)
  | ret _, _ => none
  | send symbols next, input => some (next true, input, symbols)
  | recv n next, input =>
    if input.length < n then none else some (next (input.take n), input.drop n, [])

/-- More input does not disturb a step. -/
theorem move_append {p q : Party β α} {input rest out : List β}
    (h : p.move input = some (q, rest, out)) (more : List β) :
    p.move (input ++ more) = some (q, rest ++ more, out) := by
  cases p with
  | ret a => cases h
  | send symbols next =>
    cases h
    rfl
  | recv n next =>
    simp only [move] at h ⊢
    split at h
    · cases h
    · rename_i hlen
      cases h
      have hle : n ≤ input.length := Nat.le_of_not_lt hlen
      have hmore : ¬(input ++ more).length < n := by
        rw [List.length_append]
        omega
      rw [if_neg hmore, List.take_append_of_le_length hle, List.drop_append_of_le_length hle]

end Party

/-- The two parties and what is on its way to each of them. -/
structure Talk (β α γ : Type) where
  left : Party β α
  right : Party β γ
  toLeft : List β
  toRight : List β

inductive Side where
  | left
  | right

def step (t : Talk β α γ) : Side → Option (Talk β α γ)
  | .left =>
    (t.left.move t.toLeft).map fun m => ⟨m.1, t.right, m.2.1, t.toRight ++ m.2.2⟩
  | .right =>
    (t.right.move t.toRight).map fun m => ⟨t.left, m.1, t.toLeft ++ m.2.2, m.2.1⟩

/-- A conversation of two parties who have said nothing yet. -/
def start (left : Party β α) (right : Party β γ) : Talk β α γ := ⟨left, right, [], []⟩

/-- Both are done, and everything that was sent has been received. -/
def ended (a : α) (c : γ) : Talk β α γ := ⟨.ret a, .ret c, [], []⟩

theorem ended_stuck (a : α) (c : γ) (side : Side) : step (ended a c : Talk β α γ) side = none := by
  cases side <;> rfl

theorem step_diamond {t u v : Talk β α γ} (hl : step t .left = some u)
    (hr : step t .right = some v) : ∃ w, step u .right = some w ∧ step v .left = some w := by
  simp only [step, Option.map_eq_some_iff] at hl hr
  obtain ⟨m, hm, rfl⟩ := hl
  obtain ⟨k, hk, rfl⟩ := hr
  have hm' := Party.move_append hm k.2.2
  have hk' := Party.move_append hk m.2.2
  refine ⟨⟨m.1, k.1, m.2.1 ++ k.2.2, k.2.1 ++ m.2.2⟩, ?_, ?_⟩
  · simp [step, hk']
  · simp [step, hm']

/-- Two different sides can both go first. -/
theorem step_swap {t u v : Talk β α γ} {x y : Side} (hx : step t x = some u) (hy : step t y = some v) :
    u = v ∨ ∃ w, step u y = some w ∧ step v x = some w := by
  cases x <;> cases y
  · exact .inl (Option.some.inj (hx.symm.trans hy))
  · exact .inr (step_diamond hx hy)
  · obtain ⟨w, hv, hu⟩ := step_diamond hy hx
    exact .inr ⟨w, hu, hv⟩
  · exact .inl (Option.some.inj (hx.symm.trans hy))

/-- A step does not lead away from an end that can be reached. -/
theorem run_after_step {t u f : Talk β α γ} {acts : List Side} (hf : ∀ side, step f side = none)
    (h : run step t acts = some f) {side : Side} (hs : step t side = some u) :
    ∃ rest, run step u rest = some f ∧ rest.length + 1 = acts.length := by
  induction acts generalizing t u side with
  | nil =>
    cases h
    rw [hf side] at hs
    cases hs
  | cons x acts ih =>
    obtain ⟨m, hm, hrest⟩ := run_cons_some h
    cases step_swap hm hs with
    | inl he =>
      subst he
      exact ⟨acts, hrest, rfl⟩
    | inr hw =>
      obtain ⟨w, hmw, huw⟩ := hw
      obtain ⟨rest, hr, hlen⟩ := ih hrest hmw
      refine ⟨x :: rest, ?_, by simpa using hlen⟩
      rw [run_step huw]
      exact hr

/-- In whatever order the parties take their steps, the conversation comes to this
end, and always after the same number of steps. -/
def ComesTo (t f : Talk β α γ) : Prop :=
  ∃ n, ∀ acts u, run step t acts = some u →
    ∃ rest, run step u rest = some f ∧ acts.length + rest.length = n

/-- Some order of steps leads to this end. -/
def Reaches (t f : Talk β α γ) : Prop := ∃ acts, run step t acts = some f

theorem comesTo_of_reaches {t f : Talk β α γ} (hf : ∀ side, step f side = none)
    (h : Reaches t f) : ComesTo t f := by
  obtain ⟨path, hpath⟩ := h
  refine ⟨path.length, ?_⟩
  intro acts
  induction acts generalizing t path with
  | nil =>
    intro u hu
    cases hu
    exact ⟨path, hpath, Nat.zero_add _⟩
  | cons x acts ih =>
    intro u hu
    obtain ⟨m, hm, hrest⟩ := run_cons_some hu
    obtain ⟨rest, hr, hlen⟩ := run_after_step hf hpath hm
    obtain ⟨last, hlast, hsum⟩ := ih rest hr u hrest
    refine ⟨last, hlast, ?_⟩
    rw [List.length_cons]
    omega

section Rules

variable {f : Talk β α γ} {x y : List β}

theorem reaches_self (f : Talk β α γ) : Reaches f f := ⟨[], rfl⟩

theorem reaches_step {t u : Talk β α γ} (side : Side) (hs : step t side = some u)
    (h : Reaches u f) : Reaches t f := by
  obtain ⟨acts, ha⟩ := h
  exact ⟨side :: acts, by rw [run_step hs, ha]⟩

theorem reaches_send_left {next : Bool → Party β α} {q : Party β γ} {symbols : List β}
    (h : Reaches ⟨next true, q, x, y ++ symbols⟩ f) : Reaches ⟨.send symbols next, q, x, y⟩ f :=
  reaches_step .left rfl h

theorem reaches_send_right {p : Party β α} {next : Bool → Party β γ} {symbols : List β}
    (h : Reaches ⟨p, next true, x ++ symbols, y⟩ f) : Reaches ⟨p, .send symbols next, x, y⟩ f :=
  reaches_step .right rfl h

theorem move_recv {n : Nat} {next : List β → Party β α} {got : List β} (hn : got.length = n)
    (rest : List β) :
    (Party.recv n next).move (got ++ rest) = some (next got, rest, []) := by
  subst hn
  simp [Party.move]

theorem reaches_recv_left {n : Nat} {next : List β → Party β α} {q : Party β γ} {got : List β}
    (hn : got.length = n) (h : Reaches ⟨next got, q, x, y⟩ f) :
    Reaches ⟨.recv n next, q, got ++ x, y⟩ f := by
  refine reaches_step (t := ⟨.recv n next, q, got ++ x, y⟩) .left ?_ h
  simp [step, move_recv hn]

theorem reaches_recv_right {n : Nat} {p : Party β α} {next : List β → Party β γ} {got : List β}
    (hn : got.length = n) (h : Reaches ⟨p, next got, x, y⟩ f) :
    Reaches ⟨p, .recv n next, x, got ++ y⟩ f := by
  refine reaches_step (t := ⟨p, .recv n next, x, got ++ y⟩) .right ?_ h
  simp [step, move_recv hn]

/-- The receive takes all that is on its way. -/
theorem reaches_recv_all_left {n : Nat} {next : List β → Party β α} {q : Party β γ} {got : List β}
    (hn : got.length = n) (h : Reaches ⟨next got, q, [], y⟩ f) :
    Reaches ⟨.recv n next, q, got, y⟩ f := by
  rw [← List.append_nil got]
  exact reaches_recv_left hn h

theorem reaches_recv_all_right {n : Nat} {p : Party β α} {next : List β → Party β γ} {got : List β}
    (hn : got.length = n) (h : Reaches ⟨p, next got, x, []⟩ f) :
    Reaches ⟨p, .recv n next, x, got⟩ f := by
  rw [← List.append_nil got]
  exact reaches_recv_right hn h

end Rules

end Xnbd.Dialogue
