import LanguageSpec.Frontend
import LanguageSpec.Proofs.Except
import Mathlib.Data.List.Induction
import Mathlib.Data.List.Nodup

/-!
# Registries grow

Definitions bind one name after the other, and what is bound stays bound to the same recognizer. So
every definition was compiled against a registry whose names are in all later ones.
-/

namespace LanguageSpec.Registry

/-- What is bound in a registry is bound to the same recognizer in another one. -/
def Within (r r' : Registry) : Prop := ∀ name x, r.get? name = some x → r'.get? name = some x

variable {r r' r'' : Registry} {d : Definition} {ds : List Definition} {name : String}
  {x : Recognizer}

theorem Within.refl (r : Registry) : r.Within r := fun _ _ => id

theorem Within.trans (h : r.Within r') (h' : r'.Within r'') : r.Within r'' :=
  fun name x hx => h' name x (h name x hx)

theorem Within.get?_eq (h : r.Within r') (h' : r'.Within r) (name : String) :
    r.get? name = r'.get? name :=
  Option.ext fun x => ⟨h name x, h' name x⟩

theorem mem_names_of_get? (h : r.get? name = some x) : name ∈ r.names := by
  obtain ⟨e, he, -⟩ := Option.map_eq_some_iff.mp h
  have hname : e.1 = name := by simpa using List.find?_some he
  exact List.mem_map.mpr ⟨e, List.mem_of_find?_eq_some he, hname⟩

/-! ## One definition -/

theorem names_of_define? (h : r.define? name x = some r') : r'.names = r.names ++ [name] := by
  unfold define? at h
  split at h
  · cases h
  · obtain rfl := Option.some.inj h
    exact List.map_append

theorem within_of_define? (h : r.define? name x = some r') : r.Within r' := by
  intro other y hy
  rw [get?_of_define? h]
  split
  · rename_i hsame
    have hbound : name ∈ r.names := hsame ▸ mem_names_of_get? hy
    rw [define?_eq_none_iff.mpr hbound] at h
    cases h
  · exact hy

theorem addDefinition_eq_ok_iff : r.addDefinition d = .ok r' ↔
    ∃ x, Recognizer.ofText r d.regex.pos d.regex.text = .ok x ∧
      r.define? d.name.text x = some r' := by
  unfold addDefinition
  rw [bind_eq_ok_iff]
  refine exists_congr fun x => and_congr_right fun _ => ?_
  cases r.define? d.name.text x <;> simp

theorem within_of_addDefinition (h : r.addDefinition d = .ok r') : r.Within r' := by
  obtain ⟨x, -, hdefine⟩ := addDefinition_eq_ok_iff.mp h
  exact within_of_define? hdefine

/-- What holds of all entries holds of the new one too if it holds of the recognizer that the tokens
of the definition make. -/
theorem forall_of_addDefinition {P : Recognizer → Prop} (h : r.addDefinition d = .ok r')
    (hr : ∀ name x, r.get? name = some x → P x)
    (hnew : ∀ ts x, Regex.tokens d.regex.pos d.regex.text = .ok ts →
      Recognizer.ofTokens r d.regex.pos ts = .ok x → P x) :
    ∀ name x, r'.get? name = some x → P x := by
  obtain ⟨x, hx, hdefine⟩ := addDefinition_eq_ok_iff.mp h
  obtain ⟨ts, hts, hx⟩ := bind_eq_ok_iff.mp hx
  intro name y hy
  rw [get?_of_define? hdefine] at hy
  split at hy
  · cases hy
    exact hnew ts x hts hx
  · exact hr name y hy

/-! ## Lists of definitions -/

theorem within_of_foldlM (h : ds.foldlM addDefinition r = .ok r') : r.Within r' := by
  refine foldlM_induction (P := fun _ s => r.Within s) (Within.refl r) ?_ h
  intro _ s d s' hs hstep
  exact hs.trans (within_of_addDefinition hstep)

/-- What holds of every recognizer that a definition makes, where it holds of those that the
definitions in front of it have made, holds of all entries. -/
theorem forall_of_ofDefinitions {P : Recognizer → Prop} (h : ofDefinitions ds = .ok r)
    (hnew : ∀ d ∈ ds, ∀ front before ts x, ofDefinitions front = .ok before → before.Within r →
      (∀ name y, before.get? name = some y → P y) →
      Regex.tokens d.regex.pos d.regex.text = .ok ts →
      Recognizer.ofTokens before d.regex.pos ts = .ok x → P x) :
    ∀ name x, r.get? name = some x → P x := by
  induction ds using List.reverseRecOn generalizing r with
  | nil =>
      cases h
      simp
  | append_singleton front d ih =>
      obtain ⟨before, hbefore, hlast⟩ := foldlM_append_eq_ok_iff.mp h
      have hwithin := within_of_foldlM hlast
      obtain ⟨_, hd, hnil⟩ := foldlM_cons_eq_ok_iff.mp hlast
      obtain rfl := foldlM_nil_eq_ok_iff.mp hnil
      have hfront : ∀ name x, before.get? name = some x → P x := by
        apply ih hbefore
        intro d' hd' front' before' ts x hbefore' hwithin'
        exact hnew d' (List.mem_append_left [d] hd') front' before' ts x hbefore'
          (hwithin'.trans hwithin)
      apply forall_of_addDefinition hd hfront
      intro ts x
      exact hnew d List.mem_concat_self front before ts x hbefore hwithin hfront

theorem get?_of_mem {e : String × Recognizer} (h : e ∈ r.entries) : r.get? e.1 = some e.2 := by
  obtain ⟨front, back, hentries⟩ := List.append_of_mem h
  have hdistinct := r.distinct
  rw [hentries, List.map_append, List.map_cons, List.nodup_middle] at hdistinct
  have hfront : ∀ e' ∈ front, e'.1 ≠ e.1 := by
    rintro e' he' heq
    refine (List.nodup_cons.mp hdistinct).1 (List.mem_append_left _ ?_)
    exact heq ▸ List.mem_map_of_mem he'
  have hnone : front.find? (fun e' => e'.1 = e.1) = none := by simpa using hfront
  simp [get?, hentries, hnone]

/-- A registry lists its names in the order of their definitions. -/
theorem names_of_ofDefinitions (h : ofDefinitions ds = .ok r) :
    r.names = ds.map (·.name.text) := by
  refine foldlM_induction (P := fun l s => s.names = l.map (·.name.text)) rfl ?_ h
  intro l s d s' hs hstep
  obtain ⟨x, -, hdefine⟩ := addDefinition_eq_ok_iff.mp hstep
  rw [names_of_define? hdefine, hs, List.map_append, List.map_singleton]

/-- A definition was compiled against the registry that those in front of it make. -/
theorem exists_of_mem (h : ofDefinitions ds = .ok r) (hd : d ∈ ds) :
    ∃ before x, before.Within r ∧ Recognizer.ofText before d.regex.pos d.regex.text = .ok x ∧
      r.get? d.name.text = some x := by
  obtain ⟨front, back, rfl⟩ := List.append_of_mem hd
  obtain ⟨before, -, h⟩ := foldlM_append_eq_ok_iff.mp h
  obtain ⟨next, hnext, h⟩ := foldlM_cons_eq_ok_iff.mp h
  obtain ⟨x, hx, hdefine⟩ := addDefinition_eq_ok_iff.mp hnext
  have hafter := within_of_foldlM h
  refine ⟨before, x, (within_of_define? hdefine).trans hafter, hx, hafter _ _ ?_⟩
  rw [get?_of_define? hdefine, if_pos rfl]

end LanguageSpec.Registry
