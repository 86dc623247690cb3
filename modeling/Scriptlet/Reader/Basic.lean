import Scriptlet.Token.Locate

/-!
Readers of token lists. A reader hands back what it has not read, whether it succeeds or refuses,
and that is always a suffix of what it was given.
-/

namespace Scriptlet

/-- Why a reader refuses, and the tokens from the offending one on. -/
structure Refusal where
  cause : SyntaxError.Cause
  here : List Token
deriving DecidableEq

/-- The refusal as an error in the whole list of tokens. -/
def Refusal.locate (r : Refusal) (tokens : List Token) : SyntaxError :=
  Token.errorAt tokens (tokens.length - r.here.length) r.cause

structure Step (α : Type) where
  outcome : Except Refusal α
  rest : List Token

structure Reader (α : Type) where
  run : List Token → Step α
  suffix : ∀ ts, (run ts).rest <:+ ts

variable {α β : Type}

namespace Step

def andThen (s : Step α) (f : α → List Token → Step β) : Step β :=
  match s.outcome with
  | .ok a => f a s.rest
  | .error refusal => ⟨.error refusal, s.rest⟩

def map (f : α → β) (s : Step α) : Step β :=
  ⟨s.outcome.map f, s.rest⟩

theorem andThen_suffix {s : Step α} {f : α → List Token → Step β}
    (h : ∀ a ts, (f a ts).rest <:+ ts) : (s.andThen f).rest <:+ s.rest := by
  unfold andThen
  split
  · exact h _ _
  · exact List.suffix_rfl

end Step

namespace Reader

instance : Monad Reader where
  pure a := ⟨fun ts => ⟨.ok a, ts⟩, fun _ => List.suffix_rfl⟩
  bind r f :=
    ⟨fun ts => (r.run ts).andThen fun a => (f a).run,
      fun ts => (Step.andThen_suffix fun a => (f a).suffix).trans (r.suffix ts)⟩

@[simp] theorem run_pure (a : α) (ts : List Token) : (pure a : Reader α).run ts = ⟨.ok a, ts⟩ := rfl

@[simp] theorem run_bind (r : Reader α) (f : α → Reader β) (ts : List Token) :
    (r >>= f).run ts = (r.run ts).andThen fun a => (f a).run := rfl

theorem length_rest_le (r : Reader α) (ts : List Token) : (r.run ts).rest.length ≤ ts.length :=
  (r.suffix ts).length_le

/-- The kind of the next token; the end of the list is like the token of the end. -/
def peek : List Token → Token.Kind
  | [] => .finish
  | t :: _ => t.kind

/-- Reads one token. A token that `f` refuses is not read, and `missing` is the refusal at the end
of the list. -/
def token (missing : SyntaxError.Cause) (f : Token → Except SyntaxError.Cause α) : Reader α where
  run
    | [] => ⟨.error ⟨missing, []⟩, []⟩
    | t :: ts =>
      match f t with
      | .ok a => ⟨.ok a, ts⟩
      | .error cause => ⟨.error ⟨cause, t :: ts⟩, t :: ts⟩
  suffix ts := by
    split
    · exact List.suffix_rfl
    · split
      · exact List.suffix_cons _ _
      · exact List.suffix_rfl

/-- Reads a token of one kind. -/
def expect (kind : Token.Kind) (what : String) : Reader Token :=
  token (.expected what) fun t => if t.kind = kind then .ok t else .error (.expected what)

/-- Reads a token of one kind if it is next, and says whether it was. -/
def accept (kind : Token.Kind) : Reader Bool where
  run ts := if peek ts = kind then ⟨.ok true, ts.tail⟩ else ⟨.ok false, ts⟩
  suffix ts := by
    split
    · exact List.tail_suffix ts
    · exact List.suffix_rfl

/-- Reads nothing, and refuses unless the next token is of such a kind. -/
def require (p : Token.Kind → Bool) (what : String) : Reader Unit where
  run ts := if p (peek ts) then ⟨.ok (), ts⟩ else ⟨.error ⟨.expected what, ts⟩, ts⟩
  suffix ts := by split <;> exact List.suffix_rfl

/-- Success reads at least one token. -/
def Consumes (r : Reader α) : Prop :=
  ∀ ts a, (r.run ts).outcome = .ok a → (r.run ts).rest.length < ts.length

theorem consumes_token {missing : SyntaxError.Cause} {f : Token → Except SyntaxError.Cause α} :
    Consumes (token missing f) := by
  intro ts a h
  cases ts with
  | nil => simp [token] at h
  | cons t ts =>
    cases hf : f t with
    | ok b => simp [token, hf]
    | error c => simp [token, hf] at h

theorem consumes_bind {r : Reader α} {f : α → Reader β} (hr : Consumes r) : Consumes (r >>= f) := by
  intro ts b h
  simp only [run_bind, Step.andThen] at h ⊢
  cases ho : (r.run ts).outcome with
  | ok a =>
    have := hr ts a ho
    have := (f a).length_rest_le (r.run ts).rest
    simp only
    omega
  | error e => simp [ho] at h

end Reader

end Scriptlet
