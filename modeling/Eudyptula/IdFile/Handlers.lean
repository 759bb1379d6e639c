import Eudyptula.Lib.CMem

/-! The files to which an id is written: `simple_dev_write` of Task_6 and Task_17 (the same
text in both), `id_write` of Task_8 and `id_store` of Task_9. Each module compares what its
buffer `user_input` holds after the write with the author's id. Bytes past 4096 are the
storage that follows the buffer. -/
namespace Eudyptula.IdFile
open CMem

/-- "Nishad Kamdar" -/
def author : List UInt8 := [78, 105, 115, 104, 97, 100, 32, 75, 97, 109, 100, 97, 114]

def authorId : Bytes := store (fun _ => 0) 0 (author ++ [0])

def verdict (userInput : Bytes) (count : ℕ) : ℤ :=
  if strncmp authorId userInput 0 13 ≠ 0 then -1 else count

/-- From `copy_from_user` on: return value, new `*f_pos` and new `user_input`. -/
def copyAndCheck (w : WriteArgs) (count : ℕ) (userInput : Bytes) : ℤ × ℕ × Bytes :=
  let (left, userInput) := copyFromUser userInput w.fPos w.buf count
  if left ≠ 0 then (-EFAULT, w.fPos, userInput)
  else (verdict userInput count, w.fPos + count, userInput)

/-- Task_6 and Task_17. The sum of offset and count is an unsigned 64-bit one. -/
def simpleDevWrite (w : WriteArgs) (userInput : Bytes) : ℤ × ℕ × Bytes :=
  if 4096 ≤ w.fPos then (0, w.fPos, userInput)
  else
    let count := if (w.fPos + w.count) % 2 ^ 64 > 4096 then 4096 - w.fPos else w.count
    copyAndCheck w count userInput

/-- Task_8: the count is taken as it is. -/
def idWrite (w : WriteArgs) (userInput : Bytes) : ℤ × ℕ × Bytes :=
  if 4096 ≤ w.fPos then (0, w.fPos, userInput) else copyAndCheck w w.count userInput

/-- Task_9: `buf` is followed by a NUL. -/
def idStore (buf : List UInt8) (userInput : Bytes) : ℤ × Bytes :=
  let userInput := strncpy userInput (fun k => buf.getD k 0) buf.length
  (verdict userInput buf.length, userInput)

inductive Handler
  | task6
  | task17
  | task8
  | task9
deriving DecidableEq, Repr

/-- A `write` on the file. The sysfs layer in front of `id_store` copies at most a page from
the user. -/
def Handler.call : Handler → WriteArgs → Bytes → ℤ × Bytes
  | .task6, w, m | .task17, w, m => let (ret, _, m) := simpleDevWrite w m; (ret, m)
  | .task8, w, m => let (ret, _, m) := idWrite w m; (ret, m)
  | .task9, w, m =>
    let len := min w.count 4096
    if w.buf.length < len then (-EFAULT, m) else idStore (w.buf.take len) m

/-- `user_input` after earlier writes, from the zeroed buffer of a module just loaded. -/
def Handler.after (h : Handler) (ws : List WriteArgs) : Bytes :=
  ws.foldl (fun m w => (h.call w m).2) fun _ => 0

end Eudyptula.IdFile
