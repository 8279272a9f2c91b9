import StreamDecode.RecordReader.Basic

set_option autoImplicit false

/-! # Opening a reader by a path

A program that has no files at hand, only texts that name them, opens its readers here. What a path
leads to is a matter of the file system, of which nothing is known but that the current directory and
those it lies in are there. This is the outer layer of such a program: nothing that is proved of
readers is about paths. -/

namespace StreamDecode.ByteSource

/-- The part of a text that counts as a path: a path ends before its first NUL character. -/
def pathOf (text : String) : String := String.ofList (text.toList.takeWhile (· != '\x00'))

/-- The greatest number of bytes that a path can have and be opened. -/
def longestPath : Nat := 4095

/-- Whether a path is made of `.`, `..` and empty components only, and so leads to the current
    directory, to one that it lies in, or to the root, which are there whatever files there are. -/
def leadsUp (path : String) : Bool :=
  path != "" && (path.splitOn "/").all fun component => ["", ".", ".."].contains component

/-- The error number of reading a directory. -/
def isDirectoryErrno : Int := 21

/-- The source that a text names as a path: a directory, which opens but cannot be read, or nothing
    that can be opened. -/
def ofPath (text : String) : Option ByteSource :=
  let path := pathOf text
  if path.utf8ByteSize ≤ longestPath && leadsUp path then some (.unreadable isDirectoryErrno)
  else none

/-- The text of the failure to open a path. -/
def cannotOpen (text : String) : String := "Failed to open file: " ++ pathOf text

end StreamDecode.ByteSource
