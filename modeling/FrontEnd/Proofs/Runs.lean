import FrontEnd.Proofs.Routine

/-!
# Runs of the basic actions

What each basic action yields and what it makes of the parser, so that the run of a grammar rule can
be taken apart action by action.
-/

namespace FrontEnd

namespace ParseM

variable {α β : Type}

/-- One action after another. -/
theorem run_bind (m : ParseM α) (f : α → ParseM β) (p : Parser) :
    (m >>= f).run p = (f (m.run p).1).run (m.run p).2 := rfl

/-- Yielding a value leaves the parser as it is. -/
theorem run_pure (x : α) (p : Parser) : (pure x : ParseM α).run p = (x, p) := rfl

/-- Looking at the parser. -/
theorem run_get (p : Parser) : (get : ParseM Parser).run p = (p, p) := rfl

/-- Looking at the kind of the current lexeme. -/
theorem run_token (p : Parser) : token.run p = (p.token, p) := rfl

/-- Looking at the current position. -/
theorem run_here (p : Parser) : here.run p = (p.here, p) := rfl

/-- Looking at the current lexeme. -/
theorem run_current (p : Parser) : current.run p = (p.current, p) := rfl

/-- A remark is a line of the trace. -/
theorem run_remark (text : String) (p : Parser) :
    (remark text).run p = ((), p.trace (.remark text)) := rfl

/-- A token is taken, or it is not there. -/
theorem run_got (t : Token) (p : Parser) :
    (got t).run p = if p.token = t then (true, p.next) else (false, p) := by
  change StateT.run (if p.token = t then (do next; return true) else return false : ParseM Bool) p = _
  split <;> rfl

/-- A traced rule runs between its two lines. -/
theorem run_traced (rule : Rule) (action : ParseM α) (p : Parser) :
    (traced rule action).run p =
      let r := action.run (Move.apply (.enter rule) p)
      (r.1, Move.apply .leave r.2) := rfl

end ParseM

end FrontEnd
