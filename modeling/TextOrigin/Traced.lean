import TextOrigin.Bytes

/-!
Values together with the lines that computing them reports. A reported line carries no newline of
its own. Two computations in sequence report the lines of the first before those of the second.
-/

namespace TextOrigin

structure Traced (α : Type) where
  value : α
  lines : List Bytes

namespace Traced

def bind {α β : Type} (first : Traced α) (next : α → Traced β) : Traced β :=
  let second := next first.value
  ⟨second.value, first.lines ++ second.lines⟩

instance : Monad Traced where
  pure value := ⟨value, []⟩
  bind := bind

@[simp] theorem value_pure {α : Type} (a : α) : (pure a : Traced α).value = a := rfl

@[simp] theorem lines_pure {α : Type} (a : α) : (pure a : Traced α).lines = [] := rfl

@[simp] theorem value_bind {α β : Type} (first : Traced α) (next : α → Traced β) :
    (first >>= next).value = (next first.value).value := rfl

@[simp] theorem lines_bind {α β : Type} (first : Traced α) (next : α → Traced β) :
    (first >>= next).lines = first.lines ++ (next first.value).lines := rfl

def report (lines : List Bytes) : Traced Unit := ⟨(), lines⟩

theorem ext {α : Type} {first second : Traced α} (hvalue : first.value = second.value)
    (hlines : first.lines = second.lines) : first = second := by
  cases first
  cases second
  simp_all

instance : LawfulMonad Traced :=
  LawfulMonad.mk' _ (fun x => ext rfl (List.append_nil x.lines))
    (fun _ _ => ext rfl (List.nil_append _)) (fun _ _ _ => ext rfl (List.append_assoc _ _ _))

def text {α : Type} (traced : Traced α) : Bytes :=
  traced.lines.flatMap fun line => line ++ [Bytes.newline]

end Traced

end TextOrigin
