import LiveSvg.Script.Datum
/-!
What a script does: it asks its world for one thing after another and ends with a value or a
failure. A run is the script's side alone; whoever answers decides what the questions mean.
-/

namespace LiveSvg.Script

/-- A question that a script puts to its world. -/
inductive Ask where
  | view
  | create (c : Contents)
  | store (r : Ref) (c : Contents)
  | get (e : Entity) (name : String)
  | invoke (e : Entity) (name : String) (args : List Datum)
  | apply (e : Entity) (args : List Datum)

/-- What answers a question. -/
def Ask.Answer : Ask → Type
  | .view => View
  | .create _ => Ref
  | .store .. => Unit
  | .get .. => Except Failure Datum
  | .invoke .. => Except Failure Datum
  | .apply .. => Except Failure Datum

/-- The course of a script. -/
inductive Act (α : Type) where
  | done (a : α)
  | fail (f : Failure)
  | ask (q : Ask) (next : q.Answer → Act α)

namespace Act

def bind : Act α → (α → Act β) → Act β
  | .done a, f => f a
  | .fail e, _ => .fail e
  | .ask q next, f => .ask q fun a => bind (next a) f

instance : Monad Act where
  pure := .done
  bind := bind

def ofExcept : Except Failure α → Act α
  | .ok a => .done a
  | .error f => .fail f

def view : Act View := .ask .view .done

def create (c : Contents) : Act Datum := .ask (.create c) fun r => .done (.ref r)

def store (r : Ref) (c : Contents) : Act Unit := .ask (.store r c) .done

def get (e : Entity) (name : String) : Act Datum := .ask (.get e name) ofExcept

def invoke (e : Entity) (name : String) (args : List Datum) : Act Datum :=
  .ask (.invoke e name args) ofExcept

def apply (e : Entity) (args : List Datum) : Act Datum := .ask (.apply e args) ofExcept

/-- Computes with what the script can see. -/
def see (f : View → Except Failure α) : Act α := .ask .view fun v => ofExcept (f v)

/-- Runs an act in a world that answers. -/
def run {m : Type → Type} [Monad m] (answer : (q : Ask) → m q.Answer) (raise : Failure → m α) :
    Act α → m α
  | .done a => pure a
  | .fail f => raise f
  | .ask q next => answer q >>= fun a => run answer raise (next a)

end Act

end LiveSvg.Script
