import ToolchainTools.CLib.Strings

/-!
# A `FILE` opened for reading

The bytes are those the file has when it is opened, so that reads do not see what is written to
the file while it is open. The tools do that only when a target of an extraction is its own
source, which the model leaves out. `badAt` is the offset, if there is one, from which on the
device fails: a read that would go past it is short and sets the error indicator, as a read past
the end is short and sets the end-of-file indicator.
-/

namespace CLib

structure CFile where
  content : Bytes
  pos : Nat
  badAt : Option Nat
  eof : Bool
  err : Bool
  deriving DecidableEq

namespace CFile

/-- A freshly opened file on a working device. -/
def ofBytes (content : Bytes) : CFile := ⟨content, 0, none, false, false⟩

/-- The bytes that can be read at all. -/
def readable (f : CFile) : Bytes :=
  match f.badAt with
  | some b => f.content.take b
  | none => f.content

def fread (f : CFile) (n : Nat) : Bytes × CFile :=
  let data := (f.readable.drop f.pos).take n
  if data.length < n then
    (data, { f with
      pos := f.pos + data.length
      eof := f.eof || f.badAt.isNone
      err := f.err || f.badAt.isSome })
  else (data, { f with pos := f.pos + data.length })

/-- A successful seek clears the end-of-file indicator; the position may lie behind the end. -/
def seek (f : CFile) (pos : Nat) : CFile := { f with pos := pos, eof := false }

/-- `fseek` to an absolute position, which has to fit `off_t`. -/
def fseekSet (f : CFile) (off : Nat) : Option CFile :=
  if off < 2 ^ 63 then some (f.seek off) else none

def fseekCur (f : CFile) (off : Nat) : Option CFile := f.fseekSet (f.pos + off)

/-- `fseek` to `back` bytes before the end. -/
def fseekEnd (f : CFile) (back : Nat) : Option CFile :=
  if back ≤ f.content.length then f.fseekSet (f.content.length - back) else none

theorem fseekSet_eq_some {f f' : CFile} {off : Nat} (h : f.fseekSet off = some f') :
    f' = f.seek off := by
  unfold CFile.fseekSet at h
  split at h
  · exact (Option.some.inj h).symm
  · cases h

@[simp] theorem fread_fst (f : CFile) (n : Nat) :
    (f.fread n).1 = (f.readable.drop f.pos).take n := by
  unfold fread
  dsimp only
  split <;> rfl

@[simp] theorem fread_pos (f : CFile) (n : Nat) :
    (f.fread n).2.pos = f.pos + ((f.readable.drop f.pos).take n).length := by
  unfold fread
  dsimp only
  split <;> rfl

theorem fread_pos_of_length {f : CFile} {n : Nat} (h : (f.fread n).1.length = n) :
    (f.fread n).2.pos = f.pos + n := by
  rw [fread_pos, ← fread_fst, h]

@[simp] theorem fread_content (f : CFile) (n : Nat) : (f.fread n).2.content = f.content := by
  unfold fread
  dsimp only
  split <;> rfl

@[simp] theorem fread_badAt (f : CFile) (n : Nat) : (f.fread n).2.badAt = f.badAt := by
  unfold fread
  dsimp only
  split <;> rfl

@[simp] theorem fread_readable (f : CFile) (n : Nat) : (f.fread n).2.readable = f.readable := by
  simp [readable]

@[simp] theorem seek_readable (f : CFile) (pos : Nat) : (f.seek pos).readable = f.readable := rfl

@[simp] theorem seek_pos (f : CFile) (pos : Nat) : (f.seek pos).pos = pos := rfl

@[simp] theorem seek_content (f : CFile) (pos : Nat) : (f.seek pos).content = f.content := rfl

@[simp] theorem seek_badAt (f : CFile) (pos : Nat) : (f.seek pos).badAt = f.badAt := rfl

@[simp] theorem seek_err (f : CFile) (pos : Nat) : (f.seek pos).err = f.err := rfl

@[simp] theorem seek_eof (f : CFile) (pos : Nat) : (f.seek pos).eof = false := rfl

theorem fread_eof (f : CFile) (n : Nat) :
    (f.fread n).2.eof =
      (f.eof || decide ((f.fread n).1.length < n) && f.badAt.isNone) := by
  unfold fread
  dsimp only
  split <;> simp_all

theorem fread_err (f : CFile) (n : Nat) :
    (f.fread n).2.err =
      (f.err || decide ((f.fread n).1.length < n) && f.badAt.isSome) := by
  unfold fread
  dsimp only
  split <;> simp_all

/-- A read that sets neither indicator is a full one. -/
theorem length_fread_of_full {f : CFile} {n : Nat} (heof : (f.fread n).2.eof = false)
    (herr : (f.fread n).2.err = false) : n ≤ (f.fread n).1.length := by
  by_contra hlt
  rw [fread_eof] at heof
  rw [fread_err] at herr
  cases h : f.badAt <;> simp_all

theorem readable_of_good {f : CFile} (h : f.badAt = none) : f.readable = f.content := by
  simp [readable, h]

/-- On a working device a read splits off a prefix of what lies ahead. -/
theorem fread_append_drop {f : CFile} (h : f.badAt = none) (n : Nat) :
    (f.fread n).1 ++ f.content.drop (f.fread n).2.pos = f.content.drop f.pos := by
  rw [fread_fst, fread_pos, readable_of_good h, ← List.drop_drop]
  generalize f.content.drop f.pos = ahead
  rw [List.length_take]
  rcases Nat.le_total n ahead.length with hn | hn
  · rw [Nat.min_eq_left hn, List.take_append_drop]
  · rw [Nat.min_eq_right hn, List.take_of_length_le hn, List.drop_length, List.append_nil]

/-! ## Reading known bytes -/

/-- A file with the given content, on a device that works. -/
structure Working (content : Bytes) (f : CFile) : Prop where
  good : f.badAt = none
  no_err : f.err = false
  content_eq : f.content = content

theorem Working.fread {content : Bytes} {f : CFile} (h : Working content f) (n : Nat) :
    Working content (f.fread n).2 := by
  refine ⟨?_, ?_, ?_⟩
  · rw [fread_badAt, h.good]
  · rw [fread_err, h.no_err, h.good]
    simp
  · rw [fread_content, h.content_eq]

theorem Working.seek {content : Bytes} {f : CFile} (h : Working content f) (pos : Nat) :
    Working content (f.seek pos) := ⟨h.good, h.no_err, h.content_eq⟩

theorem Working.fseekSet {content : Bytes} {f f' : CFile} (h : Working content f) {off : Nat}
    (hseek : f.fseekSet off = some f') : Working content f' :=
  fseekSet_eq_some hseek ▸ h.seek off

/-- A working file with the given content, at a place where `ahead` are the bytes to come. -/
structure Ahead (content : Bytes) (f : CFile) (ahead : Bytes) : Prop extends
    Working content f where
  small : content.length < 2 ^ 63
  pos_le : f.pos ≤ content.length
  drop_eq : content.drop f.pos = ahead

variable {content bs tail : Bytes} {f : CFile}

theorem Ahead.length_le (h : Ahead content f (bs ++ tail)) :
    f.pos + bs.length ≤ content.length := by
  have hlen := congrArg List.length h.drop_eq
  have hpos := h.pos_le
  rw [List.length_drop, List.length_append] at hlen
  omega

theorem Ahead.drop (h : Ahead content f (bs ++ tail)) :
    content.drop (f.pos + bs.length) = tail := by
  rw [← List.drop_drop, h.drop_eq, List.drop_left]

theorem Ahead.fread (h : Ahead content f (bs ++ tail)) {n : Nat} (hn : bs.length = n) :
    f.fread n = (bs, { f with pos := f.pos + n }) ∧
      Ahead content { f with pos := f.pos + n } tail := by
  subst hn
  have hdata : (f.readable.drop f.pos).take bs.length = bs := by
    rw [readable_of_good h.good, h.content_eq, h.drop_eq, List.take_left]
  refine ⟨?_, ⟨h.good, h.no_err, h.content_eq⟩, h.small, h.length_le, h.drop⟩
  unfold CFile.fread
  simp only [hdata, lt_irrefl, if_false]

theorem Ahead.fseekCur (h : Ahead content f (bs ++ tail)) {n : Nat} (hn : bs.length = n) :
    f.fseekCur n = some (f.seek (f.pos + n)) ∧ Ahead content (f.seek (f.pos + n)) tail := by
  subst hn
  have hle := h.length_le
  have hsmall := h.small
  refine ⟨?_, h.seek _, h.small, hle, h.drop⟩
  unfold CFile.fseekCur fseekSet
  rw [if_pos (by omega)]

end CFile

end CLib
