/-
# Expressions that can be written again

What is read back from what an expression was written as is the expression,
gathered: leaves of one column that stood side by side under an `and` have become
an `and` of their own. Gathered members have new keys, so they may clash where the
members did not. `Expr.Rewritable` says on the expression itself that they do not: an
`and` of several keys has at most one key of an `and` or of several leaves
(`Expr.not_collides_gather_iff`).

Whether members clash is seen from their keys and comparisons alone (`Expr.face`), so
nothing of this depends on the values that leaves compare with.

Key definitions: `Expr.face`, `Expr.crowded`, `Expr.Rewritable`.
Key theorems: `Expr.clear_bundle_iff`, `Expr.not_collides_gather_iff`,
`Expr.full_gather`.
-/
import QueryFilter.Proofs.Expr.Collision
import QueryFilter.Proofs.Expr.NormalForm

namespace QueryFilter
namespace Expr

variable {C : Type} [ColumnRef C] {kind : Junction} {es : List (Expr C)} {e : Expr C}

/-! ### What members are told apart by -/

/-- The key of an expression, with the comparison if it is a leaf. -/
def face : Expr C → String × Option OperatorKind
  | .leaf column op => (ColumnRef.reference column, some op.kind)
  | .junction kind _ => (kind.name, none)

theorem key_eq_face (e : Expr C) : e.key = e.face.1 := by cases e <;> rfl

theorem face_gather (e : Expr C) : e.gather.face = e.face := by
  cases e with
  | leaf column op => rfl
  | junction kind es =>
    rw [gather_junction, regroup]
    split <;> rfl

theorem together_iff_face {a b : Expr C} :
    Together kind a b ↔ kind = .and ∧ Junction.isName a.face.1 = false ∧
      ∃ k k', a.face.2 = some k ∧ b.face.2 = some k' ∧ k ≠ k' := by
  rw [Together, key_eq_face]
  refine and_congr_right fun _ => and_congr_right fun _ => ⟨?_, ?_⟩
  · rintro ⟨column, op, column', op', rfl, rfl, hne⟩
    exact ⟨op.kind, op'.kind, rfl, rfl, hne⟩
  · rintro ⟨k, k', ha, hb, hne⟩
    cases a with
    | junction kind es => cases ha
    | leaf column op =>
      cases b with
      | junction kind es => cases hb
      | leaf column' op' =>
        cases ha
        cases hb
        exact ⟨column, op, column', op', rfl, rfl, hne⟩

/-! ### Functions that keep it -/

section Faces

variable {f : Expr C → Expr C} (hf : ∀ e, (f e).face = e.face)
include hf

theorem key_of_face (e : Expr C) : (f e).key = e.key := by
  rw [key_eq_face, hf, key_eq_face]

theorem clear_map : Clear kind (es.map f) ↔ Clear kind es := by
  rw [Clear, Clear, List.pairwise_map]
  refine List.Pairwise.iff fun {a b} => not_congr ?_
  rw [Clashing, Clashing, together_iff_face, together_iff_face, key_of_face hf, key_of_face hf, hf, hf]

end Faces

/-! ### Bundled members -/

/-- The keys of members under which an `and` stands once these are bundled: that of
an `and`, and those of several members. -/
def crowded (es : List (Expr C)) : List String :=
  (keys es).filter fun k => k = Junction.and.name ∨ 2 ≤ (ofKey k es).length

theorem crowded_map {f : Expr C → Expr C} (hf : ∀ e, (f e).face = e.face) (es : List (Expr C)) :
    crowded (es.map f) = crowded es := by
  rw [crowded, crowded, keys_map (key_of_face hf)]
  refine List.filter_congr fun k _ => ?_
  rw [ofKey_map (key_of_face hf), List.length_map]

theorem mem_bundle {b : Expr C} :
    b ∈ bundle es ↔ ∃ k ∈ keys es, joined .and (ofKey k es) = some b := by
  rw [bundle, List.mem_filterMap]

/-- The members of one key are bundled under that key or under `and`. -/
theorem key_of_joined {k : String} {b : Expr C} (h : joined .and (ofKey k es) = some b) :
    b.key = if 2 ≤ (ofKey k es).length then Junction.and.name else k := by
  rcases joined_eq_some h with hone | ⟨hl, rfl⟩
  · have hb : b ∈ ofKey k es := by
      rw [hone]
      exact List.mem_singleton_self b
    rw [(mem_ofKey.mp hb).2, if_neg (by simp [hone])]
  · rw [if_pos hl]
    rfl

/-- Members bundled under two keys clash if an `and` stands under both. -/
theorem clashing_joined_iff {k k' : String} {b b' : Expr C} (hne : k ≠ k')
    (h : joined .and (ofKey k es) = some b) (h' : joined .and (ofKey k' es) = some b') :
    Clashing .and b b' ↔ (k = Junction.and.name ∨ 2 ≤ (ofKey k es).length) ∧
      (k' = Junction.and.name ∨ 2 ≤ (ofKey k' es).length) := by
  have hb := key_of_joined h
  have hb' := key_of_joined h'
  constructor
  · rintro ⟨hkey, -⟩
    rw [hb, hb'] at hkey
    split at hkey
    · rename_i hl
      split at hkey
      · rename_i hl'
        exact ⟨Or.inr hl, Or.inr hl'⟩
      · exact ⟨Or.inr hl, Or.inl hkey.symm⟩
    · split at hkey
      · rename_i hl'
        exact ⟨Or.inl hkey, Or.inr hl'⟩
      · exact absurd hkey hne
  · rintro ⟨hk, hk'⟩
    have hand : b.key = Junction.and.name := by
      rw [hb]
      split
      · rfl
      · rename_i hl
        exact hk.resolve_right hl
    have hand' : b'.key = Junction.and.name := by
      rw [hb']
      split
      · rfl
      · rename_i hl
        exact hk'.resolve_right hl
    refine ⟨hand.trans hand'.symm, fun htogether => ?_⟩
    have hname := htogether.2.1
    rw [hand, isName_name] at hname
    cases hname

/-- **Bundled members.** They do not clash if at most one of them is an `and`. -/
theorem clear_bundle_iff : Clear .and (bundle es) ↔ (crowded es).length ≤ 1 := by
  have hnd : (keys es).Nodup := List.nodup_eraseDups _
  rw [Clear, bundle, List.pairwise_filterMap, List.length_le_one_iff_pairwise, crowded,
    List.pairwise_filter]
  constructor
  · intro h
    refine (h.and hnd).imp_of_mem fun {k k'} hk hk' hkk hc hc' => ?_
    obtain ⟨hclear, hne⟩ := hkk
    obtain ⟨b, hb⟩ := Option.ne_none_iff_exists'.mp
      fun hnone => ofKey_ne_nil hk (joined_eq_none_iff.mp hnone)
    obtain ⟨b', hb'⟩ := Option.ne_none_iff_exists'.mp
      fun hnone => ofKey_ne_nil hk' (joined_eq_none_iff.mp hnone)
    exact hclear b hb b' hb'
      ((clashing_joined_iff hne hb hb').mpr ⟨of_decide_eq_true hc, of_decide_eq_true hc'⟩)
  · intro h
    refine (h.and hnd).imp fun {k k'} hkk b hb b' hb' hclash => ?_
    obtain ⟨hc, hc'⟩ := (clashing_joined_iff hkk.2 hb hb').mp hclash
    exact hkk.1 (decide_eq_true hc) (decide_eq_true hc')

/-- Bundling brings no clash below the members. -/
theorem not_collides_bundle_iff (hclear : Clear .and es) :
    (∀ b ∈ bundle es, ¬ Collides b) ↔ ∀ e ∈ es, ¬ Collides e := by
  constructor
  · intro h e he
    have hk : e.key ∈ keys es := mem_keys.mpr ⟨e, he, rfl⟩
    obtain ⟨b, hb⟩ := Option.ne_none_iff_exists'.mp
      fun hnone => ofKey_ne_nil hk (joined_eq_none_iff.mp hnone)
    have hmem : e ∈ ofKey e.key es := mem_ofKey.mpr ⟨he, rfl⟩
    have hb' := h b (mem_bundle.mpr ⟨e.key, hk, hb⟩)
    rcases joined_eq_some hb with hone | ⟨-, rfl⟩
    · rw [hone, List.mem_singleton] at hmem
      rwa [hmem]
    · exact (not_collides_junction_iff.mp hb').1 e hmem
  · intro h b hb
    obtain ⟨k, hk, hb⟩ := mem_bundle.mp hb
    have hes : ∀ e ∈ ofKey k es, ¬ Collides e := fun e he => h e (mem_ofKey.mp he).1
    rcases joined_eq_some hb with hone | ⟨-, rfl⟩
    · exact hes b (by rw [hone]; exact List.mem_singleton_self b)
    · exact not_collides_junction_iff.mpr ⟨hes, hclear.sublist List.filter_sublist⟩

/-! ### Gathered expressions -/

mutual

/-- Whether every `and` of several keys has at most one key under which an `and`
stands once its members are bundled. -/
def Rewritable : Expr C → Prop
  | .leaf _ _ => True
  | .junction kind children =>
    (kind = .and → 2 ≤ (keys children).length → (crowded children).length ≤ 1) ∧
      AllRewritable children

def AllRewritable : List (Expr C) → Prop
  | [] => True
  | e :: rest => Rewritable e ∧ AllRewritable rest

end

theorem allRewritable_iff : ∀ {es : List (Expr C)}, AllRewritable es ↔ ∀ e ∈ es, Rewritable e
  | [] => by simp [AllRewritable]
  | e :: rest => by rw [AllRewritable, allRewritable_iff, List.forall_mem_cons]

theorem rewritable_junction_iff : Rewritable (.junction kind es) ↔
    (kind = .and → 2 ≤ (keys es).length → (crowded es).length ≤ 1) ∧ ∀ e ∈ es, Rewritable e := by
  rw [Rewritable, allRewritable_iff]

/-- **Writing again.** An expression that can be written can be written again, gathered,
exactly if it is rewritable. -/
theorem not_collides_gather_iff (h : ¬ Collides e) : ¬ Collides e.gather ↔ Rewritable e := by
  induction e using induction with
  | leaf column op => exact ⟨fun _ => trivial, fun _ => not_collides_leaf column op⟩
  | junction kind es ih =>
    obtain ⟨hall, hclear⟩ := not_collides_junction_iff.mp h
    have hclear' : Clear kind (es.map gather) := (clear_map face_gather).mpr hclear
    have hmembers : (∀ e ∈ es.map gather, ¬ Collides e) ↔ ∀ e ∈ es, Rewritable e := by
      rw [List.forall_mem_map]
      exact forall₂_congr fun e he => ih e he (hall e he)
    rw [gather_junction, regroup, rewritable_junction_iff, ← hmembers]
    split
    · rename_i hkeys
      obtain ⟨rfl, hl⟩ := hkeys
      rw [keys_map key_gather] at hl
      rw [not_collides_junction_iff, not_collides_bundle_iff hclear', clear_bundle_iff,
        crowded_map face_gather, and_comm]
      exact and_congr_left' ⟨fun hle _ _ => hle, fun hle => hle rfl hl⟩
    · rename_i hkeys
      rw [keys_map key_gather] at hkeys
      rw [not_collides_junction_iff]
      exact ⟨fun hboth => ⟨fun hk hl => absurd ⟨hk, hl⟩ hkeys, hboth.1⟩,
        fun hboth => ⟨hboth.2, hclear'⟩⟩

/-- Gathering keeps junctions full. -/
theorem full_gather (h : Full e) : Full e.gather := by
  induction e using induction with
  | leaf column op => trivial
  | junction kind es ih =>
    obtain ⟨hl, hes⟩ := full_junction_iff.mp h
    have hmembers : ∀ e ∈ es.map gather, Full e :=
      List.forall_mem_map.mpr fun e he => ih e he (hes e he)
    rw [gather_junction, regroup]
    split
    · rename_i hkeys
      refine full_junction_iff.mpr ⟨by rw [length_bundle]; exact hkeys.2, fun b hb => ?_⟩
      obtain ⟨k, -, hb⟩ := mem_bundle.mp hb
      exact full_of_joined (fun e he => hmembers e (mem_ofKey.mp he).1) hb
    · exact full_junction_iff.mpr ⟨by rwa [List.length_map], hmembers⟩

end Expr
end QueryFilter
