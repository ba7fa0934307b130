/- digest: Buffered file streams: a content with a position, read, written and positioned. -/

import Mathlib.Data.List.TakeDrop

set_option autoImplicit false
set_option relaxedAutoImplicit false

namespace Destor.Library

/-- A stream on a file. The mode decides whether a write reaches the content. -/
structure Stream where
  content : List UInt8
  pos : Nat
  writable : Bool
deriving DecidableEq

namespace Stream

def openRead (content : List UInt8) : Stream := { content := content, pos := 0, writable := false }

/-- A file created or truncated for writing. -/
def openWrite : Stream := { content := [], pos := 0, writable := true }

/-- What lies before the reader. -/
def rest (s : Stream) : List UInt8 := s.content.drop s.pos

/-- Reads up to `n` bytes; at the end of the file there are fewer. -/
def fread (s : Stream) (n : Nat) : List UInt8 × Stream :=
  (s.rest.take n, { s with pos := s.pos + (s.rest.take n).length })

/-- Writes at the position; a gap before it reads as zeros. -/
def fwrite (s : Stream) (bs : List UInt8) : Stream :=
  if s.writable then
    { s with
      content := s.content.takeD s.pos 0 ++ bs ++ s.content.drop (s.pos + bs.length)
      pos := s.pos + bs.length }
  else s

def fseekSet (s : Stream) (off : Nat) : Stream := { s with pos := off }

def fseekEnd (s : Stream) : Stream := { s with pos := s.content.length }

def skip (s : Stream) (n : Nat) : Stream := { s with pos := s.pos + n }

section Laws

variable {s : Stream} {bs before old after tail : List UInt8}

/-- Reading what lies ahead. -/
theorem fread_of_rest (h : s.rest = bs ++ tail) :
    (s.fread bs.length).1 = bs ∧ (s.fread bs.length).2.rest = tail := by
  have htake : s.rest.take bs.length = bs := by rw [h, List.take_left]
  refine ⟨htake, ?_⟩
  show s.content.drop (s.pos + (s.rest.take bs.length).length) = tail
  rw [htake, ← List.drop_drop]
  show s.rest.drop bs.length = tail
  rw [h, List.drop_left]

theorem fread_eq {n : Nat} (h : s.rest = bs ++ tail) (hn : bs.length = n) :
    s.fread n = (bs, s.skip n) := by
  subst hn
  have htake : s.rest.take bs.length = bs := by rw [h, List.take_left]
  rw [fread, htake, skip]

theorem rest_skip {n : Nat} (h : s.rest = bs ++ tail) (hn : bs.length = n) :
    (s.skip n).rest = tail := by
  subst hn
  have hdrop : (s.skip bs.length).rest = s.rest.drop bs.length := (List.drop_drop).symm
  rw [hdrop, h, List.drop_left]

/-- A write to a stream that was opened for reading fails and changes nothing. -/
theorem fwrite_of_not_writable (h : s.writable = false) (bs : List UInt8) : s.fwrite bs = s := by
  simp [fwrite, h]

@[simp] theorem fwrite_writable (s : Stream) (bs : List UInt8) :
    (s.fwrite bs).writable = s.writable := by
  unfold fwrite
  split <;> rfl

theorem fwrite_end (h : s.writable = true) (hpos : s.pos = s.content.length) (bs : List UInt8) :
    (s.fwrite bs).content = s.content ++ bs ∧ (s.fwrite bs).pos = (s.fwrite bs).content.length := by
  have hcontent : (s.fwrite bs).content = s.content ++ bs := by
    rw [fwrite, if_pos h]
    show s.content.takeD s.pos 0 ++ bs ++ s.content.drop (s.pos + bs.length) = s.content ++ bs
    rw [hpos, List.takeD_eq_take 0 (by omega), List.take_length, List.drop_of_length_le (by omega),
      List.append_nil]
  refine ⟨hcontent, ?_⟩
  rw [hcontent, fwrite, if_pos h, List.length_append]
  show s.pos + bs.length = _
  rw [hpos]

/-- A write over bytes of the same number replaces them. -/
theorem fwrite_over (h : s.writable = true) (hcontent : s.content = before ++ old ++ after)
    (hpos : s.pos = before.length) (hlength : bs.length = old.length) :
    (s.fwrite bs).content = before ++ bs ++ after ∧
      (s.fwrite bs).pos = before.length + bs.length := by
  rw [fwrite, if_pos h]
  refine ⟨?_, congrArg (· + bs.length) hpos⟩
  show s.content.takeD s.pos 0 ++ bs ++ s.content.drop (s.pos + bs.length) = before ++ bs ++ after
  have htake : s.content.takeD s.pos 0 = before := by
    rw [List.takeD_eq_take 0 (by rw [hcontent, hpos]; simp only [List.length_append]; omega),
      hcontent, hpos, List.append_assoc, List.take_left]
  have hdrop : s.content.drop (s.pos + bs.length) = after := by
    rw [hcontent, hpos, hlength, ← List.length_append, List.drop_left]
  rw [htake, hdrop]

end Laws

section Written

structure Written (s : Stream) (bs : List UInt8) : Prop where
  writable : s.writable = true
  content : s.content = bs
  pos : s.pos = bs.length

variable {s : Stream} {bs bs' before old after : List UInt8}

theorem written_openWrite : openWrite.Written [] := ⟨rfl, rfl, rfl⟩

theorem Written.fwrite (h : s.Written bs) (bs' : List UInt8) :
    (s.fwrite bs').Written (bs ++ bs') := by
  have hpos : s.pos = s.content.length := by rw [h.pos, h.content]
  obtain ⟨hcontent, hend⟩ := fwrite_end h.writable hpos bs'
  rw [h.content] at hcontent
  refine ⟨(fwrite_writable s bs').trans h.writable, hcontent, ?_⟩
  rw [hend, hcontent]

theorem Written.fseekEnd (h : s.Written bs) : s.fseekEnd.Written bs :=
  ⟨h.writable, h.content, congrArg List.length h.content⟩

theorem Written.rewriteStart (h : s.Written (old ++ after)) (hlength : bs.length = old.length) :
    ((s.fseekSet 0).fwrite bs).content = bs ++ after := by
  have hwritable : (s.fseekSet 0).writable = true := h.writable
  have hcontent : (s.fseekSet 0).content = [] ++ old ++ after := h.content
  exact (fwrite_over hwritable hcontent rfl hlength).1

end Written

end Stream

end Destor.Library
