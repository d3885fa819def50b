import Mathlib.Data.Set.Insert

/-!
# Forests as relations

A forest is a set of vertices with an edge relation from parents to children, in which nothing has two parents, roots
have none, and everything is below a root. There are no cycles then. The two operations give a vertex another parent,
and delete a vertex, whose children become roots.
-/

open Relation

variable {ι : Type}

/-- A forest on the vertices `V` with the given roots. -/
structure IsForest (roots V : Set ι) (E : ι → ι → Prop) : Prop where
  closed : ∀ {a b}, E a b → a ∈ V ∧ b ∈ V
  unique : ∀ {a b c}, E a c → E b c → a = b
  orphan : ∀ {r a}, r ∈ roots → ¬E a r
  rooted : ∀ {r}, r ∈ roots → r ∈ V
  below : ∀ {v}, v ∈ V → ∃ r ∈ roots, ReflTransGen E r v

namespace IsForest

variable {roots V : Set ι} {E E' : ι → ι → Prop}

theorem acyclic_of_below (h : IsForest roots V E) {r v : ι} (hr : r ∈ roots) (hv : ReflTransGen E r v) :
    ¬TransGen E v v := by
  induction hv with
  | refl =>
    intro hcycle
    obtain ⟨a, -, ha⟩ := TransGen.tail'_iff.mp hcycle
    exact h.orphan hr ha
  | tail _ hedge ih =>
    -- the cycle enters at the only parent
    intro hcycle
    obtain ⟨a, hpath, ha⟩ := TransGen.tail'_iff.mp hcycle
    rw [h.unique ha hedge] at hpath
    exact ih (TransGen.head'_iff.mpr ⟨_, hedge, hpath⟩)

theorem acyclic (h : IsForest roots V E) (v : ι) : ¬TransGen E v v := by
  intro hcycle
  obtain ⟨a, ha, -⟩ := TransGen.head'_iff.mp hcycle
  obtain ⟨r, hr, hv⟩ := h.below (h.closed ha).1
  exact h.acyclic_of_below hr hv hcycle

theorem reaches_of_not_below {c r x : ι} (hE : ∀ {a b}, E a b → b ≠ c → E' a b) (hx : ReflTransGen E r x)
    (hc : ¬ReflTransGen E c x) : ReflTransGen E' r x := by
  induction hx with
  | refl => exact ReflTransGen.refl
  | tail _ hedge ih =>
    refine (ih fun hbelow => hc (hbelow.tail hedge)).tail (hE hedge ?_)
    rintro rfl
    exact hc ReflTransGen.refl

theorem reparent (h : IsForest roots V E) {c d : ι} (hE : ∀ a b, E' a b ↔ E a b ∧ b ≠ c ∨ a = d ∧ b = c) (hd : d ∈ V)
    (hc : c ∉ roots) (hbelow : ¬ReflTransGen E c d) : IsForest roots (insert c V) E' := by
  have hother : ∀ {a b}, E a b → b ≠ c → E' a b := fun hab hb => (hE _ _).mpr (.inl ⟨hab, hb⟩)
  obtain ⟨root, hroot, hpath⟩ := h.below hd
  have hmoved : ReflTransGen E' root c :=
    (reaches_of_not_below hother hpath hbelow).tail ((hE d c).mpr (.inr ⟨rfl, rfl⟩))
  have hold : ∀ {r v}, r ∈ roots → ReflTransGen E r v → ∃ r ∈ roots, ReflTransGen E' r v := by
    intro r v hr hv
    induction hv with
    | refl => exact ⟨r, hr, ReflTransGen.refl⟩
    | @tail a b _ hedge ih =>
      by_cases hb : b = c
      · rw [hb]
        exact ⟨root, hroot, hmoved⟩
      · obtain ⟨r', hr', ha⟩ := ih
        exact ⟨r', hr', ha.tail (hother hedge hb)⟩
  refine ⟨?_, ?_, ?_, fun hr => Set.mem_insert_of_mem c (h.rooted hr), ?_⟩
  · intro a b hab
    rcases (hE a b).mp hab with ⟨hab, -⟩ | ⟨rfl, rfl⟩
    · exact ⟨Set.mem_insert_of_mem c (h.closed hab).1, Set.mem_insert_of_mem c (h.closed hab).2⟩
    · exact ⟨Set.mem_insert_of_mem b hd, Set.mem_insert b V⟩
  · intro a b x ha hb
    rcases (hE a x).mp ha with ⟨ha, hne⟩ | ⟨rfl, rfl⟩
    · rcases (hE b x).mp hb with ⟨hb, -⟩ | ⟨-, heq⟩
      · exact h.unique ha hb
      · exact absurd heq hne
    · rcases (hE b x).mp hb with ⟨-, hne⟩ | ⟨rfl, -⟩
      · exact absurd rfl hne
      · rfl
  · intro r a hr ha
    rcases (hE a r).mp ha with ⟨ha, -⟩ | ⟨-, rfl⟩
    · exact h.orphan hr ha
    · exact hc hr
  · intro v hv
    rcases Set.mem_insert_iff.mp hv with rfl | hv
    · exact ⟨root, hroot, hmoved⟩
    · obtain ⟨r, hr, hpath⟩ := h.below hv
      exact hold hr hpath

theorem delete (h : IsForest roots V E) {v : ι} (hE : ∀ a b, E' a b ↔ E a b ∧ a ≠ v ∧ b ≠ v) (hv : v ∉ roots)
    {roots' : Set ι} (hroots : ∀ r, r ∈ roots' ↔ r ∈ roots ∨ E v r) :
    IsForest roots' {x ∈ V | x ≠ v} E' := by
  refine ⟨?_, ?_, ?_, ?_, ?_⟩
  · intro a b hab
    obtain ⟨hab, ha, hb⟩ := (hE a b).mp hab
    exact ⟨⟨(h.closed hab).1, ha⟩, (h.closed hab).2, hb⟩
  · intro a b c ha hb
    exact h.unique ((hE a c).mp ha).1 ((hE b c).mp hb).1
  · intro r a hr ha
    obtain ⟨ha, hne, -⟩ := (hE a r).mp ha
    rcases (hroots r).mp hr with hr | hr
    · exact h.orphan hr ha
    · exact hne (h.unique ha hr)
  · intro r hr
    rcases (hroots r).mp hr with hr | hr
    · exact ⟨h.rooted hr, fun heq => hv (heq ▸ hr)⟩
    · exact ⟨(h.closed hr).2, fun heq => h.acyclic v (TransGen.single (heq ▸ hr))⟩
  · rintro x ⟨hx, hne⟩
    obtain ⟨r, hr, hpath⟩ := h.below hx
    induction hpath with
    | refl => exact ⟨r, (hroots r).mpr (.inl hr), ReflTransGen.refl⟩
    | @tail a b _ hedge ih =>
      by_cases ha : a = v
      · rw [ha] at hedge
        exact ⟨b, (hroots b).mpr (.inr hedge), ReflTransGen.refl⟩
      · obtain ⟨r', hr', hpath⟩ := ih (h.closed hedge).1 ha
        exact ⟨r', hr', hpath.tail ((hE a b).mpr ⟨hedge, ha, hne⟩)⟩

end IsForest
