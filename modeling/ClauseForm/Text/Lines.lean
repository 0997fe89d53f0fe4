/-!
The lines of a file.

A line ends at a line feed, which is not part of it, and neither is one carriage return in front of
the line feed.  The end of the file ends the last line, unless nothing comes after the last line
feed.
-/

namespace ClauseForm.Text

/-- A line without the carriage return at its end. -/
def dropReturn (line : List UInt8) : List UInt8 :=
  if line.getLast? == some 13 then line.dropLast else line

/-- The lines of a file as bytes. -/
def byteLines (bytes : List UInt8) : List (List UInt8) :=
  let pieces := bytes.splitOnP (· == 10)
  let ended := pieces.dropLast.map dropReturn
  match pieces.getLast?.getD [] with
  | [] => ended
  | last => ended ++ [last]

/-- The lines of a file as text; nothing stands for a line that is not valid UTF-8. -/
def lines (file : ByteArray) : List (Option String) :=
  (byteLines file.toList).map fun line => String.fromUTF8? ⟨line.toArray⟩

end ClauseForm.Text
