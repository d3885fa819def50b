import Afl.Net.Url.Url
import Mathlib.Data.List.Basic

/-!
# Merging paths

A path as its list of segments: `resolve` is what following a relative path means, `directory` is the path that ends
after the given segments. The accumulator of `mergePath` is always a `directory`; only a final `..` takes the slash
at its end away, and with it the only slash if one segment was left.
-/

namespace Afl.Net

open Url

/-! ### Segments -/

def segments (path : Bytes) : List Bytes := path.splitOn 47

/-- The segments of an absolute path up to its last slash. -/
def folder (path : Bytes) : List Bytes := (segments path).tail.dropLast

def follow (folder : List Bytes) (segment : Bytes) : List Bytes :=
  if segment = lit ".." then folder.dropLast
  else if segment = lit "." then folder
  else folder ++ [segment]

/-- Follow a relative path. -/
def resolve (folder : List Bytes) (path : List Bytes) : List Bytes := path.foldl follow folder

def names (segments : List Bytes) : List Bytes := segments.filter (· ≠ [])

/-- The path that ends in a slash after these segments. -/
def directory (folder : List Bytes) : Bytes := 47 :: folder.flatMap (· ++ [47])

/-- No slash within a segment. -/
def Slashless (folder : List Bytes) : Prop := ∀ s ∈ folder, 47 ∉ s

theorem Slashless.follow {folder : List Bytes} {segment : Bytes} (h : Slashless folder) (hsegment : 47 ∉ segment) :
    Slashless (follow folder segment) := by
  rw [Net.follow]
  split
  · exact fun s hs => h s (List.dropLast_subset _ hs)
  · split
    · exact h
    · exact List.forall_mem_append.mpr ⟨h, List.forall_mem_singleton.mpr hsegment⟩

theorem directory_concat (folder : List Bytes) (s : Bytes) :
    directory (folder ++ [s]) = directory folder ++ s ++ [47] := by
  simp [directory]

theorem exists_directory (folder : List Bytes) : ∃ front, directory folder = front ++ [47] := by
  rcases List.eq_nil_or_concat' folder with rfl | ⟨init, s, rfl⟩
  · exact ⟨[], rfl⟩
  · exact ⟨_, directory_concat init s⟩

theorem segments_flatMap {folder : List Bytes} (h : Slashless folder) {s : Bytes} (hs : 47 ∉ s) :
    segments (folder.flatMap (· ++ [47]) ++ s) = folder ++ [s] := by
  induction folder with
  | nil => exact List.splitOn_eq_singleton hs
  | cons f folder ih =>
    have hf : 47 ∉ f := h f List.mem_cons_self
    have hfolder := ih fun x hx => h x (List.mem_cons_of_mem f hx)
    have htext : (f :: folder).flatMap (· ++ [47]) ++ s = f ++ 47 :: (folder.flatMap (· ++ [47]) ++ s) := by simp
    rw [htext, segments, List.splitOn_append_cons_self_of_not_mem hf]
    exact congrArg (f :: ·) hfolder

theorem segments_directory {folder : List Bytes} (h : Slashless folder) {s : Bytes} (hs : 47 ∉ s) :
    segments (directory folder ++ s) = [] :: folder ++ [s] := by
  have hsplit : segments ([] ++ 47 :: (folder.flatMap (· ++ [47]) ++ s)) =
      [] :: segments (folder.flatMap (· ++ [47]) ++ s) :=
    List.splitOn_append_cons_self_of_not_mem List.not_mem_nil _
  exact hsplit.trans (congrArg ([] :: ·) (segments_flatMap h hs))

theorem exists_segments (path : Bytes) :
    ∃ folder s, Slashless folder ∧ 47 ∉ s ∧ path = folder.flatMap (· ++ [47]) ++ s := by
  induction path with
  | nil => exact ⟨[], [], List.forall_mem_nil _, List.not_mem_nil, rfl⟩
  | cons c path ih =>
    obtain ⟨folder, s, hfolder, hs, rfl⟩ := ih
    by_cases hc : c = 47
    · subst hc
      exact ⟨[] :: folder, s, List.forall_mem_cons.mpr ⟨List.not_mem_nil, hfolder⟩, hs, rfl⟩
    · have hc' (f : Bytes) (hf : 47 ∉ f) : 47 ∉ c :: f := by
        rw [List.mem_cons]
        exact fun h => h.elim (fun heq => hc heq.symm) hf
      cases folder with
      | nil => exact ⟨[], c :: s, hfolder, hc' s hs, rfl⟩
      | cons f folder =>
        obtain ⟨hf, hfolder⟩ := List.forall_mem_cons.mp hfolder
        exact ⟨(c :: f) :: folder, s, List.forall_mem_cons.mpr ⟨hc' f hf, hfolder⟩, hs, rfl⟩

/-! ### The accumulator -/

theorem rfind_none {s : Bytes} (hs : 47 ∉ s) : rfind s = none := by
  induction s with
  | nil => rfl
  | cons c s ih =>
    have hc : c ≠ 47 := fun hc => hs (hc ▸ List.mem_cons_self)
    have hrest := ih fun hmem => hs (List.mem_cons_of_mem c hmem)
    simp [rfind, hrest, hc]

theorem rfind_append {a s : Bytes} (hs : 47 ∉ s) : rfind (a ++ 47 :: s) = some a.length := by
  induction a with
  | nil => simp [rfind, rfind_none hs]
  | cons c a ih => simp [rfind, ih]

theorem rfind_directory {folder : List Bytes} {s front : Bytes} (hs : 47 ∉ s) (h : directory folder = front ++ [47]) :
    rfind (directory folder ++ s) = some front.length := by
  have htext : directory folder ++ s = front ++ 47 :: s := by simp [h]
  rw [htext, rfind_append hs]

theorem dropComponent_nil (keep : Nat) : dropComponent keep (directory []) = [47] := rfl

theorem dropComponent_concat (keep : Nat) {folder : List Bytes} {s front : Bytes} (hs : 47 ∉ s)
    (h : directory folder = front ++ [47]) :
    dropComponent keep (directory (folder ++ [s])) = (directory folder ++ s ++ [47]).take (front.length + keep) := by
  have hlength : (directory folder ++ s ++ [47]).length ≥ 2 := by
    simp [h]
    omega
  have htake : (directory folder ++ s ++ [47]).take ((directory folder ++ s ++ [47]).length - 1) =
      directory folder ++ s := by
    rw [List.length_append, List.length_singleton, Nat.add_sub_cancel, List.take_left']
    rfl
  rw [directory_concat, dropComponent, if_pos hlength, htake, rfind_directory hs h]

theorem dropComponent_one {folder : List Bytes} (h : Slashless folder) :
    dropComponent 1 (directory folder) = directory folder.dropLast := by
  rcases List.eq_nil_or_concat' folder with rfl | ⟨init, s, rfl⟩
  · exact dropComponent_nil 1
  · obtain ⟨front, hfront⟩ := exists_directory init
    have hs : 47 ∉ s := h s (by simp)
    rw [dropComponent_concat 1 hs hfront, List.dropLast_concat, hfront]
    simp [List.take_append, List.take_of_length_le]

theorem dropComponent_zero {folder : List Bytes} {s : Bytes} (hs : 47 ∉ s) :
    dropComponent 0 (directory (folder ++ [s])) = (directory folder).dropLast := by
  obtain ⟨front, hfront⟩ := exists_directory folder
  rw [dropComponent_concat 0 hs hfront, hfront]
  simp

theorem mergeComponent_directory {folder : List Bytes} (h : Slashless folder) (s : Bytes) :
    mergeComponent (directory folder) s = directory (follow folder s) := by
  rw [mergeComponent, follow]
  split
  · exact dropComponent_one h
  · split
    · rfl
    · exact (directory_concat folder s).symm

theorem mergeComponents_append {s : Bytes} (hs : 47 ∉ s) (result component right : Bytes) :
    mergeComponents result component (s ++ right) = mergeComponents result (component ++ s) right := by
  induction s generalizing component with
  | nil => rw [List.nil_append, List.append_nil]
  | cons c s ih =>
    have hc : c ≠ 47 := fun hc => hs (hc ▸ List.mem_cons_self)
    have hrest := ih (fun hmem => hs (List.mem_cons_of_mem c hmem)) (component ++ [c])
    rw [List.append_assoc, List.singleton_append] at hrest
    rw [List.cons_append, mergeComponents, if_neg hc, hrest]

theorem mergeComponents_segment {s : Bytes} (hs : 47 ∉ s) (result component right : Bytes) :
    mergeComponents result component (s ++ 47 :: right) =
      mergeComponents (mergeComponent result (component ++ s)) [] right := by
  rw [mergeComponents_append hs, mergeComponents, if_pos rfl]

theorem mergeComponents_last {s : Bytes} (hs : 47 ∉ s) (result component : Bytes) :
    mergeComponents result component s = mergeFinal result (component ++ s) := by
  have happend := mergeComponents_append hs result component []
  rwa [List.append_nil] at happend

theorem mergeComponents_directory {folder rest : List Bytes} {last : Bytes} (h : Slashless folder)
    (hrest : Slashless rest) (hlast : 47 ∉ last) :
    mergeComponents (directory folder) [] (rest.flatMap (· ++ [47]) ++ last) =
      mergeFinal (directory (resolve folder rest)) last := by
  induction rest generalizing folder with
  | nil => exact mergeComponents_last hlast _ _
  | cons s rest ih =>
    obtain ⟨hs, hrest⟩ := List.forall_mem_cons.mp hrest
    have htext : (s :: rest).flatMap (· ++ [47]) ++ last = s ++ 47 :: (rest.flatMap (· ++ [47]) ++ last) := by simp
    rw [htext, mergeComponents_segment hs, List.nil_append, mergeComponent_directory h s, ih (h.follow hs) hrest]
    rfl

theorem Slashless.resolve {folder rest : List Bytes} (h : Slashless folder) (hrest : Slashless rest) :
    Slashless (resolve folder rest) := by
  induction rest generalizing folder with
  | nil => exact h
  | cons s rest ih =>
    obtain ⟨hs, hrest⟩ := List.forall_mem_cons.mp hrest
    exact ih (h.follow hs) hrest

theorem mergePath_directory {folder rest : List Bytes} {s last : Bytes} (h : Slashless folder) (hs : 47 ∉ s)
    (hrest : Slashless rest) (hlast : 47 ∉ last) :
    mergePath (directory folder ++ s) (rest.flatMap (· ++ [47]) ++ last) =
      mergeFinal (directory (resolve folder rest)) last := by
  obtain ⟨front, hfront⟩ := exists_directory folder
  have htake : (directory folder ++ s).take (front.length + 1) = directory folder := by
    rw [hfront, List.take_left']
    simp
  simp only [mergePath, rfind_directory hs hfront, htake]
  exact mergeComponents_directory h hrest hlast

/-! ### The final component -/

/-- What `mergePath` should give: an absolute path with the names that following the reference leads to. -/
def Merged (path : Bytes) (folder : List Bytes) : Prop :=
  path.head? = some 47 ∧ names (segments path) = names folder

theorem merged_directory {folder : List Bytes} (h : Slashless folder) {s : Bytes} (hs : 47 ∉ s) :
    Merged (directory folder ++ s) (folder ++ [s]) := by
  refine ⟨rfl, ?_⟩
  rw [segments_directory h hs]
  simp [names]

theorem merged_mergeFinal_iff {folder : List Bytes} (h : Slashless folder) {last : Bytes} (hlast : 47 ∉ last) :
    Merged (mergeFinal (directory folder) last) (follow folder last) ↔
      ¬(last = lit ".." ∧ folder.length = 1) := by
  have hopen {folder : List Bytes} (h : Slashless folder) : Merged (directory folder) folder := by
    have hmerged := merged_directory h (s := []) List.not_mem_nil
    rw [List.append_nil] at hmerged
    exact ⟨hmerged.1, hmerged.2.trans (by simp [names])⟩
  rw [mergeFinal, follow]
  by_cases hup : last = lit ".."
  · rw [if_pos hup, if_pos hup]
    rcases List.eq_nil_or_concat' folder with rfl | ⟨init, s, rfl⟩
    · rw [dropComponent_nil]
      exact iff_of_true (hopen h) (by simp)
    · have hs : 47 ∉ s := h s (by simp)
      rw [dropComponent_zero hs, List.dropLast_concat]
      rcases List.eq_nil_or_concat' init with rfl | ⟨init, t, rfl⟩
      · exact iff_of_false (fun hm => absurd hm.1 (by decide)) (fun hnot => hnot ⟨hup, rfl⟩)
      · have ht : 47 ∉ t := h t (by simp)
        have hinit : Slashless init := fun x hx => h x (by simp [hx])
        rw [directory_concat, List.dropLast_concat]
        exact iff_of_true (merged_directory hinit ht) (by simp)
  · rw [if_neg hup, if_neg hup]
    refine iff_of_true ?_ fun hboth => hup hboth.1
    split
    · exact hopen h
    · exact merged_directory h hlast

/-! ### URLs -/

theorem exists_folder {path : Bytes} (h : path.head? = some 47) :
    ∃ s, Slashless (folder path) ∧ 47 ∉ s ∧ path = directory (folder path) ++ s := by
  obtain ⟨parts, s, hparts, hs, rfl⟩ := exists_segments path
  cases parts with
  | nil => exact absurd (List.mem_of_mem_head? h) hs
  | cons f parts =>
    obtain ⟨hf, hrest⟩ := List.forall_mem_cons.mp hparts
    obtain rfl : f = [] := by
      cases f with
      | nil => rfl
      | cons c f => exact absurd (Option.some.inj h ▸ List.mem_cons_self) hf
    have hfolder : folder (([] :: parts).flatMap (· ++ [47]) ++ s) = parts := by
      have hsegments := segments_directory hrest hs
      have htext : ([] :: parts).flatMap (· ++ [47]) ++ s = directory parts ++ s := rfl
      rw [folder, htext, hsegments]
      simp
    rw [hfolder]
    exact ⟨s, hrest, hs, rfl⟩

/-- Merging a relative path gives the URL it leads to, unless a final `..` leaves nothing of the base path. -/
theorem mergeFrom_iff {u other : Url} (hscheme : other.scheme ≠ []) (hhost : other.host ≠ [])
    (hpath : other.path.head? = some 47) (hu : u.scheme = [] ∧ u.host = []) (hne : u.path ≠ [])
    (hrelative : u.path.head? ≠ some 47) :
    ((u.mergeFrom other).isValidHost = true ∧ (u.mergeFrom other).path.head? = some 47 ∧
        names (segments (u.mergeFrom other).path) = names (resolve (folder other.path) (segments u.path))) ↔
      ¬((segments u.path).getLast? = some (lit "..") ∧
        (resolve (folder other.path) (segments u.path).dropLast).length = 1) := by
  obtain ⟨s, hfolder, hs, hbase⟩ := exists_folder hpath
  obtain ⟨rest, last, hrest, hlast, href⟩ := exists_segments u.path
  have hsegments : segments u.path = rest ++ [last] := by rw [href, segments_flatMap hrest hlast]
  have hmerged : u.mergeFrom other = { u with
      scheme := other.scheme
      host := other.host
      port := other.port
      user := other.user
      password := other.password
      path := mergeFinal (directory (resolve (folder other.path) rest)) last } := by
    have hmerge := mergePath_directory hfolder hs hrest hlast
    rw [← hbase, ← href] at hmerge
    simp [Url.mergeFrom, hu, mergedPath, hne, hrelative, hmerge]
  have hresolve : resolve (folder other.path) (rest ++ [last]) = follow (resolve (folder other.path) rest) last := by
    simp [resolve]
  have hvalid (path : Bytes) (h : path.head? = some 47) :
      Url.isValidHost { u with
        scheme := other.scheme
        host := other.host
        port := other.port
        user := other.user
        password := other.password
        path } = true := by
    have hpath : path ≠ [] := fun hnil => by simp [hnil] at h
    simp [isValidHost, hscheme, hhost, hpath]
  have hexact := merged_mergeFinal_iff (hfolder.resolve hrest) hlast
  rw [hmerged, hsegments, hresolve, List.getLast?_concat, List.dropLast_concat, Option.some.injEq, ← hexact]
  exact ⟨fun h => h.2, fun h => ⟨hvalid _ h.1, h⟩⟩

theorem mergeFrom_dots :
    ((Url.mergeFrom ⟨[], [], [], [], [], lit "./../x/..", []⟩
            ⟨lit "http", [], [], lit "h", [], lit "/a/b/c", []⟩).isValidHost = true ∧
        (Url.mergeFrom ⟨[], [], [], [], [], lit "./../x/..", []⟩
            ⟨lit "http", [], [], lit "h", [], lit "/a/b/c", []⟩).path.head? = some 47 ∧
        names (segments (Url.mergeFrom ⟨[], [], [], [], [], lit "./../x/..", []⟩
            ⟨lit "http", [], [], lit "h", [], lit "/a/b/c", []⟩).path) =
          names (resolve (folder (lit "/a/b/c")) (segments (lit "./../x/..")))) ↔
      ¬((segments (lit "./../x/..")).getLast? = some (lit "..") ∧
        (resolve (folder (lit "/a/b/c")) (segments (lit "./../x/..")).dropLast).length = 1) :=
  mergeFrom_iff (by decide) (by decide) (by decide) (by decide) (by decide) (by decide)

/-- Going up from the only directory gives an empty path. -/
theorem mergeFrom_up_to_root :
    ¬∀ u other : Url, other.scheme ≠ [] → other.host ≠ [] → other.path.head? = some 47 →
      u.scheme = [] ∧ u.host = [] → u.path ≠ [] → u.path.head? ≠ some 47 → 63 ∉ u.path →
      (u.mergeFrom other).isValidHost = true ∧ (u.mergeFrom other).path.head? = some 47 ∧
        names (segments (u.mergeFrom other).path) = names (resolve (folder other.path) (segments u.path)) := by
  intro h
  have hmerged := h ⟨[], [], [], [], [], lit "..", []⟩ ⟨lit "http", [], [], lit "host", [], lit "/a/b", []⟩
    (by decide) (by decide) (by decide) (by decide) (by decide) (by decide) (by decide)
  exact absurd hmerged.1 (by decide)

end Afl.Net
