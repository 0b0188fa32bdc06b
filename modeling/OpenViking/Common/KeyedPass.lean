import Mathlib.Data.List.Basic
import Mathlib.Data.List.Nodup
import Mathlib.Tactic.Common

/-!
# Passes over distinct keys

A loop over distinct keys whose body at a key reads and changes only what the state holds at that
key, and may have no result.  Each key is treated as if it were the only one.

Results:

* `pass_log`: what the loop has recorded;
* `nodup_flatMap_append`: what two loops have recorded is there once.
-/

namespace OpenViking.KeyedPass

variable {S K A E X : Type*} (get : S → K → A) (set : S → K → A → E → S)
  (body : K → A → Option (A × E))

/-- The loop. -/
def pass (s : S) (keys : List K) : Option S :=
  keys.foldlM (fun s k => (body k (get s k)).map fun p => set s k p.1 p.2) s

/-- What the body records at a key. -/
def emitted (out : E → List X) (s : S) (k : K) : List X :=
  match body k (get s k) with
  | some p => out p.2
  | none => []

variable {get set body}

variable {keys : List K}

theorem pass_cons {s s' : S} {k : K} :
    pass get set body s (k :: keys) = some s' ↔
      ∃ a e, body k (get s k) = some (a, e) ∧ pass get set body (set s k a e) keys = some s' := by
  unfold pass
  rw [List.foldlM_cons]
  cases h : body k (get s k) with
  | none => simp
  | some p =>
    obtain ⟨a, e⟩ := p
    constructor
    · intro hrest
      exact ⟨a, e, rfl, hrest⟩
    · rintro ⟨a', e', heq, hrest⟩
      cases heq
      exact hrest

theorem pass_invariant {Inv : S → Prop}
    (hstep : ∀ s k a e, Inv s → body k (get s k) = some (a, e) → Inv (set s k a e))
    {s s' : S} (h : pass get set body s keys = some s') (hs : Inv s) : Inv s' := by
  induction keys generalizing s with
  | nil =>
    obtain rfl := Option.some.inj h
    exact hs
  | cons k keys ih =>
    obtain ⟨a, e, hbody, hrest⟩ := pass_cons.1 h
    exact ih hrest (hstep s k a e hs hbody)

/-- The body changes what the state holds at its key alone. -/
structure IsLocal (get : S → K → A) (set : S → K → A → E → S) (body : K → A → Option (A × E)) :
    Prop where
  self : ∀ s k a e, body k (get s k) = some (a, e) → get (set s k a e) k = a
  other : ∀ s k a e k', k' ≠ k → get (set s k a e) k' = get s k'

section

variable (hlocal : IsLocal get set body)

include hlocal

variable {keys : List K}

theorem pass_isSome (hnodup : keys.Nodup) {s : S}
    (h : ∀ k ∈ keys, (body k (get s k)).isSome) : ∃ s', pass get set body s keys = some s' := by
  induction keys generalizing s with
  | nil => exact ⟨s, rfl⟩
  | cons k keys ih =>
    obtain ⟨hk, hkeys⟩ := List.nodup_cons.1 hnodup
    obtain ⟨⟨a, e⟩, hbody⟩ := Option.isSome_iff_exists.1 (h k List.mem_cons_self)
    obtain ⟨s', hs'⟩ := ih hkeys (s := set s k a e) fun k' hk' => by
      rw [hlocal.other s k a e k' fun heq => hk (heq ▸ hk')]
      exact h k' (List.mem_cons_of_mem k hk')
    exact ⟨s', pass_cons.2 ⟨a, e, hbody, hs'⟩⟩

/-- Each key is treated as if it were the only one. -/
theorem pass_get (hnodup : keys.Nodup) {s s' : S} (h : pass get set body s keys = some s') (k : K) :
    (k ∈ keys → ∃ e, body k (get s k) = some (get s' k, e)) ∧ (k ∉ keys → get s' k = get s k) := by
  induction keys generalizing s with
  | nil =>
    obtain rfl := Option.some.inj h
    exact ⟨fun hk => absurd hk List.not_mem_nil, fun _ => rfl⟩
  | cons k' keys ih =>
    obtain ⟨hk', hkeys⟩ := List.nodup_cons.1 hnodup
    obtain ⟨a, e, hbody, hrest⟩ := pass_cons.1 h
    obtain ⟨hin, hout⟩ := ih hkeys hrest
    by_cases heq : k = k'
    · subst heq
      have hsame := hout hk'
      rw [hlocal.self s k a e hbody] at hsame
      exact ⟨fun _ => ⟨e, hsame ▸ hbody⟩, fun hnot => absurd List.mem_cons_self hnot⟩
    · rw [hlocal.other s k' a e k heq] at hin hout
      exact ⟨fun hk => hin (List.mem_of_ne_of_mem heq hk),
        fun hnot => hout fun hk => hnot (List.mem_cons_of_mem k' hk)⟩

theorem pass_log (log : S → List X) (out : E → List X)
    (hlog : ∀ s k a e, log (set s k a e) = log s ++ out e) (hnodup : keys.Nodup)
    {s s' : S} (h : pass get set body s keys = some s') :
    log s' = log s ++ keys.flatMap (emitted get body out s) := by
  induction keys generalizing s with
  | nil =>
    obtain rfl := Option.some.inj h
    simp
  | cons k keys ih =>
    obtain ⟨hk, hkeys⟩ := List.nodup_cons.1 hnodup
    obtain ⟨a, e, hbody, hrest⟩ := pass_cons.1 h
    have hothers : keys.flatMap (emitted get body out (set s k a e)) =
        keys.flatMap (emitted get body out s) :=
      List.flatMap_congr fun k' hk' => by
        unfold emitted
        rw [hlocal.other s k a e k' fun heq => hk (heq ▸ hk')]
    have hself : emitted get body out s k = out e := by
      unfold emitted
      rw [hbody]
    rw [ih hkeys hrest, hlog, hothers, List.flatMap_cons, hself, List.append_assoc]

end

theorem nodup_flatMap_of_key {f : K → List X} (hnodup : keys.Nodup)
    (hf : ∀ k, (f k).Nodup) (hkey : ∀ k k' x, x ∈ f k → x ∈ f k' → k = k') : (keys.flatMap f).Nodup := by
  rw [List.nodup_flatMap]
  refine ⟨fun k _ => hf k, hnodup.imp fun {k k'} hne => ?_⟩
  exact fun x hx hx' => hne (hkey k k' x hx hx')

/-- Two passes whose records at a key tell the key, and that record nothing twice there. -/
theorem nodup_flatMap_append {keys keys' : List K} {f g : K → List X} (hnodup : keys.Nodup)
    (hnodup' : keys'.Nodup) (hfg : ∀ k, (f k ++ g k).Nodup)
    (hkey : ∀ k k' x, x ∈ f k ++ g k → x ∈ f k' ++ g k' → k = k') :
    (keys.flatMap f ++ keys'.flatMap g).Nodup := by
  refine List.nodup_append.2 ⟨?_, ?_, ?_⟩
  · exact nodup_flatMap_of_key hnodup (fun k => (List.nodup_append.1 (hfg k)).1) fun k k' x hx hx' =>
      hkey k k' x (List.mem_append_left _ hx) (List.mem_append_left _ hx')
  · exact nodup_flatMap_of_key hnodup' (fun k => (List.nodup_append.1 (hfg k)).2.1)
      fun k k' x hx hx' => hkey k k' x (List.mem_append_right _ hx) (List.mem_append_right _ hx')
  · rintro x hx y hy rfl
    obtain ⟨k, -, hk⟩ := List.mem_flatMap.1 hx
    obtain ⟨k', -, hk'⟩ := List.mem_flatMap.1 hy
    obtain rfl := hkey k k' x (List.mem_append_left _ hk) (List.mem_append_right _ hk')
    exact (List.nodup_append.1 (hfg k)).2.2 x hk x hk' rfl

end OpenViking.KeyedPass
