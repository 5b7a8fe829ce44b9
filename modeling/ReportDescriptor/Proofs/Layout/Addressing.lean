import ReportDescriptor.Proofs.Forest.Siblings
import ReportDescriptor.Proofs.Layout.Edit
import ReportDescriptor.Proofs.Sample

/-!
# Addressing fields

Layout finds its fields by their number in the list of all leaves and changes them among their
siblings, at the path of the same number. Both come to the same, also for the second of two edits
whose path was found before the first: a changed leaf leaves all paths as they are.
-/

namespace ReportDescriptor

namespace Layout.Edit

open Forest

variable {f : FieldForest} {i : Nat} {p : Path} {l : Leaf}

theorem modifyAt_eq_grow (hp : f.leafPaths[i]? = some p) (hl : f.leafAt? p = some l)
    (old new : BitWidth) :
    f.modifyAt (·.withRequested new) p = .ok (apply f (.grow i old new)) := by
  rw [modifyAt_eq hl, apply, splice, hp]

theorem insertAt_eq_insertPadding (hp : f.leafPaths[i]? = some p) (hl : f.leafAt? p = some l)
    (w : BitWidth) : f.insertAt (.padding w) p = .ok (apply f (.insertPadding w i)) := by
  rw [insertAt_eq hl, apply, splice, hp]

/-- The leaf after one that is changed is found at the path that it had before. -/
theorem exists_mergePadding {m : Leaf} (hl : f.leaves[i]? = some l)
    (hm : f.leaves[i + 1]? = some m) (combined : BitWidth) :
    ∃ p q g, f.leafPaths[i]? = some p ∧ f.leafPaths[i + 1]? = some q ∧
      f.modifyAt (·.withRequested combined) p = .ok g ∧ g.LeadsTo q (i + 1) m ∧
      g.removeAt q = .ok (apply f (.mergePadding i combined)) ∧
      f.EditedTo ((f.leaves.set i (l.withRequested combined)).eraseIdx (i + 1))
        (apply f (.mergePadding i combined)) := by
  obtain ⟨p, hp, hfirst⟩ := exists_leafPath hl
  obtain ⟨q, hq, -⟩ := exists_leafPath hm
  obtain ⟨g, hg, hgrown, hpaths, -⟩ :=
    (leadsTo_of_leafPaths hp hl).modify (·.withRequested combined)
  have hsecond : g.leaves[i + 1]? = some m := by
    rw [hgrown.leaves_eq, List.getElem?_set_ne (Nat.ne_of_lt (Nat.lt_succ_self i)), hm]
  -- The path is the one found in `f`, before the change.
  have hlater : g.leafPaths[i + 1]? = some q := by rw [hpaths, hq]
  have hleads := leadsTo_of_leafPaths hlater hsecond
  obtain ⟨merged, hremove, hmerged, -⟩ := hleads.remove
  have hmerge : apply f (.mergePadding i combined) = merged := by
    obtain rfl := Except.ok.inj ((modifyAt_eq hfirst _).symm.trans hg)
    have hsplice := removeAt_eq ((leafAt?_of_leafPaths hlater).trans hsecond)
    simp only [apply, hp, hq]
    exact Except.ok.inj (hsplice.symm.trans hremove)
  rw [hmerge]
  refine ⟨p, q, g, hp, hq, hg, hleads, hremove, ?_, ?_⟩
  · rw [hmerged.leaves_eq, hgrown.leaves_eq]
  · rw [hmerged.skeleton_eq, hgrown.skeleton_eq]

/-- There are as many paths as leaves, and path number `i` leads to leaf number `i`. The edits of a
layout are edits among the siblings at these paths. When two leaves are merged, the path of the
second still leads to it after the first has been changed. -/
theorem apply_among_siblings (f : FieldForest) :
    f.leafPaths.length = f.leaves.length ∧
      (∀ i l, f.leaves[i]? = some l → ∃ p, f.leafPaths[i]? = some p ∧ f.LeadsTo p i l ∧
        (∀ old new, f.modifyAt (·.withRequested new) p = .ok (apply f (.grow i old new))) ∧
        ∀ w, f.insertAt (.padding w) p = .ok (apply f (.insertPadding w i))) ∧
      ∀ i l m combined, f.leaves[i]? = some l → f.leaves[i + 1]? = some m →
        ∃ p q g, f.leafPaths[i]? = some p ∧ f.leafPaths[i + 1]? = some q ∧
          f.modifyAt (·.withRequested combined) p = .ok g ∧ g.LeadsTo q (i + 1) m ∧
          g.removeAt q = .ok (apply f (.mergePadding i combined)) ∧
          f.EditedTo ((f.leaves.set i (l.withRequested combined)).eraseIdx (i + 1))
            (apply f (.mergePadding i combined)) := by
  refine ⟨f.length_leafPaths, fun i l hl => ?_, fun i l m combined hl hm =>
    exists_mergePadding hl hm combined⟩
  obtain ⟨p, hp, hleaf⟩ := exists_leafPath hl
  exact ⟨p, hp, leadsTo_of_leafPaths hp hl, modifyAt_eq_grow hp hleaf,
    insertAt_eq_insertPadding hp hleaf⟩

/-- Two paddings that are not siblings: the second is the first child of a collection. -/
theorem apply_among_siblings_padded :
    ∃ u v w : BitWidth, w.bits = u.bits + v.bits ∧
      Sample.padded.leaves[0]? = some (.padding u) ∧
      Sample.padded.leaves[1]? = some (.padding v) ∧
      ∃ p q g, Sample.padded.leafPaths[0]? = some p ∧ Sample.padded.leafPaths[1]? = some q ∧
        Sample.padded.LeadsTo p 0 (.padding u) ∧
        Sample.padded.modifyAt (·.withRequested w) p = .ok g ∧ g.LeadsTo q 1 (.padding v) ∧
        g.removeAt q = .ok (apply Sample.padded (.mergePadding 0 w)) := by
  obtain ⟨-, hpaths, hmerge⟩ := apply_among_siblings Sample.padded
  obtain ⟨p, q, g, hp, hq, hg, hlater, hremove, -⟩ := hmerge 0 _ _ ⟨8, by omega, by omega⟩ rfl rfl
  obtain ⟨p', hp', hleads, -⟩ := hpaths 0 _ rfl
  obtain rfl := Option.some.inj (hp.symm.trans hp')
  exact ⟨_, _, _, rfl, rfl, rfl, p, q, g, hp, hq, hleads, hg, hlater, hremove⟩

end Layout.Edit

end ReportDescriptor
