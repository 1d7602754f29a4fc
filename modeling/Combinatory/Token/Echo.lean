import Combinatory.Token.Basic

/-!
The echo of a program: the symbols of its tags, with every definition and the task on a line of its
own.
-/

namespace Combinatory

namespace Echo

def before (inTask : Bool) : Tag → String
  | .name => if inTask then "" else "\n"
  | .questionSign => "\n"
  | .equalSign => " "
  | _ => ""

def behind : Tag → String
  | .questionSign => " "
  | .equalSign => " "
  | _ => ""

end Echo

def echo (tags : List Tag) : String :=
  go "" false tags
where
  go (acc : String) (inTask : Bool) : List Tag → String
    | [] => acc
    | tag :: tags =>
      let acc := acc ++ Echo.before inTask tag ++ tag.symbol ++ Echo.behind tag
      go acc (inTask || tag = .questionSign) tags

end Combinatory
