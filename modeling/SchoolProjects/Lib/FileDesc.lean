import SchoolProjects.Lib.Text

/-! An open file: its bytes and the offset at which the next read or write happens. A write
behind the end fills the gap with zeros. -/

namespace SchoolProjects

structure FileDesc where
  content : Text
  offset : ℕ

namespace FileDesc

/-- `lseek(fd, k, SEEK_SET)`. -/
def seek (fd : FileDesc) (k : ℕ) : FileDesc := { fd with offset := k }

/-- `lseek(fd, 0, SEEK_END)`, whose result is the new offset. -/
def seekEnd (fd : FileDesc) : FileDesc := fd.seek fd.content.length

/-- `read(fd, buf, num_bytes)` into a buffer that holds `memory`; `none` where the bytes do
not fit. -/
def read (fd : FileDesc) (memory : Text) (num_bytes : ℕ) : Option (Text × FileDesc) :=
  let bytes := (fd.content.drop fd.offset).take num_bytes
  if memory.length < bytes.length then none
  else some (bytes ++ memory.drop bytes.length, fd.seek (fd.offset + bytes.length))

/-- `ftruncate(fd, k)`. -/
def truncate (fd : FileDesc) (k : ℕ) : FileDesc :=
  { fd with content := fd.content.take k ++ List.replicate (k - fd.content.length) 0 }

/-- `write(fd, t, strlen(t))`. -/
def write (fd : FileDesc) (t : Text) : FileDesc :=
  if t = [] then fd
  else
    { content := (fd.truncate fd.offset).content ++ t ++ fd.content.drop (fd.offset + t.length)
      offset := fd.offset + t.length }

/-- Reading a whole file. -/
theorem read_all (fd : FileDesc) (memory : Text) (h : fd.content.length ≤ memory.length) :
    (fd.seekEnd.seek 0).read memory fd.seekEnd.offset = some
      (fd.content ++ memory.drop fd.content.length, fd.seekEnd) := by
  simp [read, seekEnd, seek, not_lt.2 h]

theorem read_all_eq_none (fd : FileDesc) (memory : Text)
    (h : memory.length < fd.content.length) :
    (fd.seekEnd.seek 0).read memory fd.seekEnd.offset = none := by
  simp [read, seekEnd, seek, h]

/-- A write within the file or at its end. -/
theorem write_middle (p q t : Text) : (⟨p ++ q, p.length⟩ : FileDesc).write t =
    ⟨(p ++ t) ++ q.drop t.length, (p ++ t).length⟩ := by
  by_cases ht : t = []
  · simp [write, ht]
  · simp [write, ht, truncate]

theorem write_end (p t : Text) :
    (⟨p, p.length⟩ : FileDesc).write t = ⟨p ++ t, (p ++ t).length⟩ := by
  simpa using write_middle p [] t

/-- Cutting the file off at a byte of it. -/
theorem truncate_append (p q : Text) (k : ℕ) :
    (⟨p ++ q, k⟩ : FileDesc).truncate p.length = ⟨p, k⟩ := by
  simp [truncate]

/-- What is behind a byte of the file is replaced. -/
theorem replace_end (p q t u : Text) (k : ℕ) :
    (((((⟨p ++ q, k⟩ : FileDesc).seek p.length).truncate p.length).write t).write u).content =
      p ++ (t ++ u) := by
  rw [seek, truncate_append, write_end, write_end, List.append_assoc]

end FileDesc

end SchoolProjects
