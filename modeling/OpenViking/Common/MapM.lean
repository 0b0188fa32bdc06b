import Mathlib.Data.List.Forall2

/-!
# Maps that may fail

* `mapM_eq_some`: a list is mapped to the list of its elements' images.
-/

namespace OpenViking

theorem mapM_eq_some {α β : Type*} {f : α → Option β} {l : List α} {l' : List β} :
    l.mapM f = some l' ↔ List.Forall₂ (fun a b => f a = some b) l l' := by
  induction l generalizing l' with
  | nil => cases l' <;> simp
  | cons a l ih =>
    rw [List.mapM_cons]
    constructor
    · intro h
      obtain ⟨b, hb, h⟩ := Option.bind_eq_some_iff.1 h
      obtain ⟨bs, hbs, h⟩ := Option.bind_eq_some_iff.1 h
      obtain rfl := Option.some.inj h
      exact .cons hb (ih.1 hbs)
    · rintro (_ | ⟨hb, hbs⟩)
      rw [hb, ih.2 hbs]
      rfl

theorem mapM_map_eq_some {α β : Type*} {f : α → Option β} {g : β → α} {l : List β}
    (h : ∀ b ∈ l, f (g b) = some b) : (l.map g).mapM f = some l := by
  rw [mapM_eq_some, List.forall₂_map_left_iff, List.forall₂_same]
  exact h

theorem exists_of_forall₂ {α β : Type*} {R : α → β → Prop} {l : List α} {l' : List β}
    (h : List.Forall₂ R l l') {a : α} (ha : a ∈ l) : ∃ b ∈ l', R a b := by
  obtain ⟨i, hi, rfl⟩ := List.getElem_of_mem ha
  have hi' : i < l'.length := h.length_eq ▸ hi
  exact ⟨l'[i], List.getElem_mem hi', h.get hi hi'⟩

end OpenViking
