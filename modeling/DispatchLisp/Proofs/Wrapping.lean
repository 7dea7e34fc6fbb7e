import DispatchLisp.Error
import Mathlib.Data.List.Induction

/-! # The layers of an error

Hints and traces are attached to an error one after the other, in any order, while it travels up
from where it arose.  However many are attached, there is at most one layer of each sort, and the
hint is the outer one (`Error.layered`).  A hint replaces the one before and a trace never does, so
what is left in the end is the last hint and the first trace that is not empty
(`Error.attachAll_base`). -/

namespace DispatchLisp

/-- Something that is attached to an error. -/
inductive Attachment where
  | hint (text : String)
  | trace (names : List String)

namespace Attachment

/-- The hint, if it is one. -/
def hint? : Attachment → Option String
  | hint text => some text
  | trace _ => none

/-- The trace, if it is one and is not empty. -/
def trace? : Attachment → Option (List String)
  | hint _ => none
  | trace names => if names.isEmpty then none else some names

end Attachment

namespace Error

/-- Attaches a hint or a trace. -/
def attach (e : Error) : Attachment → Error
  | .hint text => e.withHint text
  | .trace names => e.withTrace names

/-- Attaches hints and traces one after the other. -/
def attachAll (e : Error) (attachments : List Attachment) : Error := attachments.foldl attach e

/-! ### Layers -/

/-- The cause with at most one trace and at most one hint, the hint outside. -/
def layered (c : Cause) : Option (List String) → Option String → Error
  | none, none => base c
  | some names, none => traced (base c) names
  | none, some text => hinted (base c) text
  | some names, some text => hinted (traced (base c) names) text

section

variable (c : Cause) (names? : Option (List String)) (text? : Option String)

@[simp] theorem cause_layered : (layered c names? text?).cause = c := by
  cases names? <;> cases text? <;> rfl

@[simp] theorem hint?_layered : (layered c names? text?).hint? = text? := by
  cases names? <;> cases text? <;> rfl

@[simp] theorem trace?_layered : (layered c names? text?).trace? = names? := by
  cases names? <;> cases text? <;> rfl

theorem withHint_layered (text : String) :
    (layered c names? text?).withHint text = layered c names? (some text) := by
  cases names? <;> cases text? <;> rfl

theorem withTrace_layered (names : List String) :
    (layered c names? text?).withTrace names =
      layered c (names?.or (Attachment.trace names).trace?) text? := by
  cases names? with
  | some old => cases text? <;> rfl
  | none => cases names <;> cases text? <;> rfl

/-- **One more attachment makes no new sort of layers.** -/
theorem attach_layered (a : Attachment) :
    (layered c names? text?).attach a = layered c (names?.or a.trace?) (a.hint?.or text?) := by
  cases a with
  | hint text =>
      rw [attach, withHint_layered, Attachment.trace?, Option.or_none]
      rfl
  | trace names =>
      rw [attach, withTrace_layered]
      rfl

end

/-- **What is left of all attachments.** -/
theorem attachAll_base (c : Cause) (attachments : List Attachment) :
    (base c).attachAll attachments =
      layered c (attachments.filterMap Attachment.trace?).head?
        (attachments.filterMap Attachment.hint?).getLast? := by
  induction attachments using List.reverseRecOn with
  | nil => rfl
  | append_singleton attachments a ih =>
      have hlast : (base c).attachAll (attachments ++ [a]) =
          ((base c).attachAll attachments).attach a := by
        simp only [attachAll, List.foldl_append, List.foldl_cons, List.foldl_nil]
      have hnames : ([a].filterMap Attachment.trace?).head? = a.trace? := by
        cases h : a.trace? <;> simp [h]
      have htext : ([a].filterMap Attachment.hint?).getLast? = a.hint? := by
        cases h : a.hint? <;> simp [h]
      rw [hlast, ih, attach_layered, List.filterMap_append, List.filterMap_append,
        List.head?_append, List.getLast?_append, hnames, htext]

/-- **Wrapped errors are in normal form.**  Whatever hints and traces are attached to a cause, in
whatever order, the error is the cause with at most one trace and at most one hint around it.  It
happened for that cause and says so in the same words, its hint is the last one that was attached,
and its trace is the first one that was attached and is not empty. -/
theorem wrapping_normal_form (c : Cause) (attachments : List Attachment) :
    let e := (base c).attachAll attachments
    (e = base c ∨ (∃ names, e = traced (base c) names) ∨ (∃ text, e = hinted (base c) text) ∨
      ∃ names text, e = hinted (traced (base c) names) text) ∧
    e.cause = c ∧ e.message = (base c).message ∧
    e.hint? = (attachments.filterMap Attachment.hint?).getLast? ∧
    e.trace? = (attachments.filterMap Attachment.trace?).head? := by
  intro e
  have he : e = layered c (attachments.filterMap Attachment.trace?).head?
      (attachments.filterMap Attachment.hint?).getLast? := attachAll_base c attachments
  refine ⟨?_, ?_, ?_, ?_, ?_⟩
  · rw [he]
    cases (attachments.filterMap Attachment.trace?).head? with
    | none =>
        cases (attachments.filterMap Attachment.hint?).getLast? with
        | none => exact .inl rfl
        | some text => exact .inr (.inr (.inl ⟨text, rfl⟩))
    | some names =>
        cases (attachments.filterMap Attachment.hint?).getLast? with
        | none => exact .inr (.inl ⟨names, rfl⟩)
        | some text => exact .inr (.inr (.inr ⟨names, text, rfl⟩))
  · rw [he, cause_layered]
  · rw [he, message, cause_layered]
    rfl
  · rw [he, hint?_layered]
  · rw [he, trace?_layered]

end Error

end DispatchLisp
