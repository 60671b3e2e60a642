import StackLang.Output.Stream

/-!
# Output

Output goes to a list of streams, each of which gets everything. With no stream it is discarded. A
single stream answers for itself; with several, a write goes to one after the other and stops at the
first that fails or takes too little, and a flush goes to all of them.
-/

namespace StackLang

abbrev Output := List Stream

namespace Output

/-- Offer bytes to each stream in turn, as long as each takes all of them. -/
def writeAll (s : Bytes) : Output → Output × Reply
  | [] => ([], .done s.length none)
  | stream :: streams =>
    match stream.write s with
    | (stream, .done n none) =>
      if n = s.length then
        let (streams, reply) := writeAll s streams
        (stream :: streams, reply)
      else (stream :: streams, .done n (some .short))
    | (stream, reply) => (stream :: streams, reply)

def write (s : Bytes) : Output → Output × Reply
  | [stream] =>
    let (stream, reply) := stream.write s
    ([stream], reply)
  | streams => writeAll s streams

def writeText (s : Bytes) : Output → Output × Reply
  | [stream] =>
    let (stream, reply) := stream.writeText s
    ([stream], reply)
  | streams => writeAll s streams

/-- Flush every stream. The first error is reported, but a panic ends the call at once. -/
def flush : Output → Output × Reply
  | [] => ([], .done 0 none)
  | stream :: streams =>
    match stream.flush with
    | (stream, .panic message) => (stream :: streams, .panic message)
    | (stream, .done _ error) =>
      match flush streams with
      | (streams, .panic message) => (stream :: streams, .panic message)
      | (streams, .done _ error') => (stream :: streams, .done 0 (error <|> error'))

end Output

/-- A combination of outputs, nested at will. -/
inductive Tee where
  | nothing
  | stream (s : Stream)
  | all (ts : List Tee)
deriving Inhabited

namespace Tee

mutual

/-- The streams of a combination, in order: nesting makes no difference. -/
def flatten : Tee → Output
  | nothing => []
  | stream s => [s]
  | all ts => flattenList ts

def flattenList : List Tee → Output
  | [] => []
  | t :: ts => flatten t ++ flattenList ts

end

end Tee

end StackLang
