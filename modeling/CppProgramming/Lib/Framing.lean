import Mathlib.Data.List.Basic
import Mathlib.Order.Basic

/-!
# Frames in a stream

A frame is a header of fixed length and a body, whose length the header says.  Frames that
are written one after the other can be taken apart again: a stream of frames that is the
start of another is made of its first frames (`Frame.prefix_of_bytes`).  So a reader needs to
know nothing of the writer but that it writes frames.
-/

namespace CppProgramming.Lib

variable {β : Type*} {width : ℕ} {decode : List β → Option ℕ}

/-- A frame: the header tells the length of the body. -/
structure Frame (β : Type*) (width : ℕ) (decode : List β → Option ℕ) where
  header : List β
  body : List β
  length_header : header.length = width
  decode_header : decode header = some body.length

namespace Frame

def bytes (f : Frame β width decode) : List β := f.header ++ f.body

/-- Frames one after the other. -/
def stream (fs : List (Frame β width decode)) : List β := fs.flatMap bytes

@[simp] theorem stream_nil : stream ([] : List (Frame β width decode)) = [] := rfl

@[simp] theorem stream_cons (f : Frame β width decode) (fs : List (Frame β width decode)) :
    stream (f :: fs) = f.bytes ++ stream fs := rfl

@[simp] theorem stream_append (fs gs : List (Frame β width decode)) :
    stream (fs ++ gs) = stream fs ++ stream gs :=
  List.flatMap_append

theorem ext_of_parts {f g : Frame β width decode} (hheader : f.header = g.header)
    (hbody : f.body = g.body) : f = g := by
  cases f
  cases g
  cases hheader
  cases hbody
  rfl

/-- The first frame of a stream is known from its bytes. -/
theorem eq_of_bytes_append {f g : Frame β width decode} {r r' : List β}
    (h : f.bytes ++ r = g.bytes ++ r') : f = g ∧ r = r' := by
  rw [bytes, bytes, List.append_assoc, List.append_assoc] at h
  obtain ⟨hheader, hrest⟩ := List.append_inj h (f.length_header.trans g.length_header.symm)
  have hlen : f.body.length = g.body.length := by
    have hf := f.decode_header
    rw [hheader, g.decode_header] at hf
    exact (Option.some.inj hf).symm
  obtain ⟨hbody, hrest⟩ := List.append_inj hrest hlen
  exact ⟨ext_of_parts hheader hbody, hrest⟩

/-- **Frames delimit themselves.** -/
theorem prefix_of_stream (hwidth : 0 < width) {fs gs : List (Frame β width decode)}
    (h : stream fs <+: stream gs) : fs <+: gs := by
  induction fs generalizing gs with
  | nil => exact List.nil_prefix
  | cons f fs ih =>
    obtain ⟨r, hr⟩ := h
    cases gs with
    | nil =>
      have hlen := congrArg List.length hr
      rw [stream_cons, bytes] at hlen
      simp only [List.length_append, f.length_header, stream_nil, List.length_nil] at hlen
      omega
    | cons g gs =>
      rw [stream_cons, stream_cons, List.append_assoc] at hr
      obtain ⟨rfl, hrest⟩ := eq_of_bytes_append hr
      exact List.cons_prefix_cons.mpr ⟨rfl, ih ⟨r, hrest⟩⟩

end Frame

end CppProgramming.Lib
