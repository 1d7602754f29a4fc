import Combinatory.Reduction.Contraction

/-!
The reduction machine. It works on one sequence at a time, first on its head and then on its members
from left to right, and keeps the sequences around it as a stack of frames. A step either contracts
the head of the sequence or only moves on; only contractions are counted, recorded, and limited.
Members that are `done` are kept with the last one first.
-/

namespace Combinatory

namespace Reduction

structure Frame (α : Type := Option Span) where
  done : List (Term α)
  note : α
  rest : List (Term α)

inductive Focus (α : Type := Option Span) where
  | head (terms : List (Term α))
  | members (done rest : List (Term α))

structure Config (α : Type := Option Span) where
  focus : Focus α
  outer : List (Frame α)

inductive Move (α : Type := Option Span) where
  | silent (next : Config α)
  | fired (before after : List (Term α)) (next : Config α)
  | halted (result : List (Term α))
  | fault (defect : Defect)

variable {α : Type}

namespace Config

def start (terms : List (Term α)) : Config α :=
  { focus := .head terms, outer := [] }

def step [Note α] (exhausted : Bool) : Config α → Move α
  | ⟨.head [], outer⟩ => .silent ⟨.members [] [], outer⟩
  | ⟨.head (t :: ts), outer⟩ =>
    if exhausted then
      .silent ⟨.members [] (t :: ts), outer⟩
    else
      match t with
      | .group nodes _ => .silent ⟨.head (nodes ++ ts), outer⟩
      | .primitive c _ =>
        if (t :: ts).length ≤ c.arity then
          .silent ⟨.members [] (t :: ts), outer⟩
        else
          match c.contract (t :: ts) with
          | .ok after => .fired (t :: ts) after ⟨.head after, outer⟩
          | .error defect => .fault defect
  | ⟨.members done (.group nodes note :: rest), outer⟩ =>
    .silent ⟨.head nodes, { done, note, rest } :: outer⟩
  | ⟨.members done (t :: rest), outer⟩ => .silent ⟨.members (t :: done) rest, outer⟩
  | ⟨.members done [], frame :: outer⟩ =>
    let group := Term.group done.reverse frame.note
    .silent ⟨.members (group.collapse :: frame.done) frame.rest, outer⟩
  | ⟨.members done [], []⟩ => .halted done.reverse

end Config

structure Firing (α : Type := Option Span) where
  number : Int
  before : List (Term α)
  after : List (Term α)

def exhausts (limit : Option Int) (steps : Int) : Bool :=
  match limit with
  | none => false
  | some limit => limit ≤ steps

structure Progress (α : Type := Option Span) where
  steps : Int
  trace : Array (Firing α) := #[]

def Progress.record (p : Progress α) (before after : List (Term α)) : Progress α :=
  let number := p.steps + 1
  { steps := number, trace := p.trace.push { number, before, after } }

inductive Ending (α : Type := Option Span) where
  | finished (result : List (Term α))
  | suspended (config : Config α)
  | fault (defect : Defect)

def run [Note α] (limit : Option Int)
    : (fuel : Nat) → Progress α → Config α → Progress α × Ending α
  | 0, p, config => (p, .suspended config)
  | fuel + 1, p, config =>
    match config.step (exhausts limit p.steps) with
    | .silent config => run limit fuel p config
    | .fired before after config => run limit fuel (p.record before after) config
    | .halted result => (p, .finished result)
    | .fault defect => (p, .fault defect)

end Reduction

end Combinatory
