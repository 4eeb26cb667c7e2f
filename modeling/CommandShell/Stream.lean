import CommandShell.Failure
import CommandShell.Text.Lines

/-!
# Streams

Commands read from one stream and write to another. Most streams are texts in memory with a
position, at which both reading and writing take place. A bare stream exists but can neither read
nor write, and where nothing at all was connected the stream is missing.
-/

namespace CommandShell

inductive Stream where
  | memory (text : Text) (position : Nat) (closed : Bool)
  | bare (closed : Bool)
  | missing
deriving DecidableEq, Repr, Inhabited

namespace Stream

/-- A stream that holds a text, at its beginning. -/
def ofText (s : Text) : Stream := memory s 0 false

def empty : Stream := ofText []

def isConnected : Stream → Bool
  | missing => false
  | _ => true

def isClosed : Stream → Bool
  | memory _ _ closed => closed
  | bare closed => closed
  | missing => false

def text? : Stream → Option Text
  | memory text _ _ => some text
  | _ => none

def close : Stream → Except Crash Stream
  | memory text position _ => return memory text position true
  | bare _ => return bare true
  | missing => throw .missingPart

/-- A text with another one written over it from a position on. A gap before the position is
filled with NUL characters. -/
def overwrite (old : Text) (position : Nat) (new : Text) : Text :=
  old.take position ++ List.replicate (position - old.length) '\x00' ++ new
    ++ old.drop (position + new.length)

/-- Writes a text at the position and moves past it. -/
def write (new : Text) : Stream → Except Crash Stream
  | memory _ _ true => throw .closedStream
  | memory old position false =>
    if new.isEmpty then return memory old position false
    else return memory (overwrite old position new) (position + new.length) false
  | bare _ => throw .unsupported
  | missing => throw .missingPart

/-- Refuses a stream that cannot be iterated over or be given lines. -/
def checkOpen (stream : Stream) : Except Crash Unit :=
  if stream.isClosed then throw .closedStream else return

/-- Writes texts one after the other; a closed stream is refused even if there are none. -/
def writeAll (texts : List Text) (stream : Stream) : Except Crash Stream := do
  stream.checkOpen
  texts.foldlM (fun stream text => stream.write text) stream

def seek (position : Nat) : Stream → Except Crash Stream
  | memory _ _ true => throw .closedStream
  | memory text _ false => return memory text position false
  | bare _ => throw .unsupported
  | missing => throw .missingPart

def tell : Stream → Except Crash Nat
  | memory _ _ true => throw .closedStream
  | memory _ position false => return position
  | bare _ => throw .unsupported
  | missing => throw .missingPart

/-- Moves to the end of the text and tells where that is. -/
def seekEnd : Stream → Except Crash (Nat × Stream)
  | memory _ _ true => throw .closedStream
  | memory text _ false => return (text.length, memory text text.length false)
  | bare _ => throw .unsupported
  | missing => throw .missingPart

def read : Stream → Except Crash (Text × Stream)
  | memory _ _ true => throw .closedStream
  | memory text position false =>
    return (text.drop position, memory text (max position text.length) false)
  | bare _ => throw .unsupported
  | missing => throw .missingPart

/-- The lines that follow the position, before any of them is read. -/
def pendingLines : Stream → Except Crash (List Text)
  | memory _ _ true => throw .closedStream
  | memory text position false => return Text.lines (text.drop position)
  | bare true => throw .closedStream
  | bare false => throw .unsupported
  | missing => throw .missingPart

def skip (count : Nat) : Stream → Stream
  | memory text position closed => memory text (position + count) closed
  | stream => stream

/-- Whether a stream has nothing to read, as commands see it: its position is the end of its
text. A stream without a position is taken to have something. -/
def isExhausted : Stream → Except Crash Bool
  | memory _ _ true => throw .closedStream
  | memory text position false => return text.length = position
  | bare _ => return false
  | missing => throw .missingPart

/-- Whether a stream has nothing to copy, as redirects see it: nothing follows its position. A
stream without a position is taken to have nothing. -/
def hasNoMore : Stream → Except Crash Bool
  | memory _ _ true => throw .closedStream
  | memory text position false => return text.length ≤ position
  | bare _ => return true
  | missing => throw .missingPart

end Stream

end CommandShell
