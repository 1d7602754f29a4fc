/-!
Line ends of text that comes from a file: a carriage return, a line feed, and the pair of the two
all become one line feed.
-/

namespace Combinatory

namespace Newline

def normalise (text : List Char) : List Char :=
  go [] text
where
  go (acc : List Char) : List Char → List Char
    | [] => acc.reverse
    | '\r' :: '\n' :: rest => go ('\n' :: acc) rest
    | '\r' :: rest => go ('\n' :: acc) rest
    | c :: rest => go (c :: acc) rest

end Newline

end Combinatory
