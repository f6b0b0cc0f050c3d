import SleepyPenguin.Foundation.Program
import SleepyPenguin.Tls.Buffer

-- The methods that wait, as programs over requests for a buffer and releases.
namespace SleepyPenguin.Tls

open Foundation

-- `blocked` is a wait that does not end.
inductive Cmd : Type → Type
  | get (size : Nat) (env : Env) : Cmd (Except Err (Nat × Nat))
  | put (p : Option Nat) : Cmd Unit
  | blocked : Cmd Empty

abbrev Waiter (α : Type) := Prog Cmd Err α

namespace Waiter

def get (size : Nat) (env : Env) : Waiter (Nat × Nat) := .attempt (.get size env)

def put (p : Option Nat) : Waiter Unit := .perform (.put p)

def blocked {α : Type} : Waiter α := .cmd .blocked fun never => nomatch never

end Waiter

-- A command in its thread; nothing follows a failed assertion or a buffer
-- that was looked at after it was freed.
def exec (w : Nat) : (β : Type) → Thread → Cmd β → Option (β × Thread)
  | _, s, .get size env =>
      match gettlsbuf w s.tls size env with
      | .returned (p, left) tls =>
          some (.ok (p, left), { s with tls := tls, out := ⟨p, size, left⟩ :: s.out })
      | .raised e tls => some (.error e, { s with tls := tls })
      | .fault _ => none
  | _, s, .put none => some ((), s)
  | _, s, .put (some p) =>
      match puttlsbuf s.tls (some p) with
      | .returned _ tls => some ((), { s with tls := tls, out := s.out.filter (·.ptr != p) })
      | .raised _ tls => some ((), { s with tls := tls })
      | .fault _ => none
  | _, _, .blocked => none

section Run

variable {w : Nat} {s : Thread} {size p left : Nat} {env : Env} {tls : Memory}

theorem run_get_returned (h : gettlsbuf w s.tls size env = .returned (p, left) tls) :
    (Waiter.get size env).run (exec w) s =
      some (.ok (p, left), { s with tls := tls, out := ⟨p, size, left⟩ :: s.out }) := by
  simp only [Waiter.get, Prog.attempt, Prog.run, exec, h]
  rfl

theorem run_get_raised {e : Err} (h : gettlsbuf w s.tls size env = .raised e tls) :
    (Waiter.get size env).run (exec w) s = some (.error e, { s with tls := tls }) := by
  simp only [Waiter.get, Prog.attempt, Prog.run, exec, h]
  rfl

theorem run_put_returned (h : puttlsbuf s.tls (some p) = .returned () tls) :
    (Waiter.put (some p)).run (exec w) s =
      some (.ok (), { s with tls := tls, out := s.out.filter (·.ptr != p) }) := by
  simp only [Waiter.put, Prog.perform, Prog.run, exec, h]
  rfl

end Run

end SleepyPenguin.Tls
