import Mathlib.Data.List.Infix
import Spellbook.Files.Snapshot
import Spellbook.Files.Tree

/-! File systems with finitely many files to read. -/
namespace Spellbook

def Files.Listed (files : Files) (known : List Path) : Prop :=
  ∀ p source, files.read (files.canonical p) = .ok source →
    (files.canonical p).isAmong known = true

def Files.Finite (files : Files) : Prop := ∃ known, files.Listed known

theorem Path.isAmong_of_mem {p : Path} {paths : List Path} (h : p ∈ paths) :
    p.isAmong paths = true :=
  List.any_eq_true.2 ⟨p, h, beq_self_eq_true p.parts⟩

theorem Snapshot.finite_files (s : Snapshot) : s.files.Finite := by
  refine ⟨s.texts.map (·.1), fun p source h => Path.isAmong_of_mem ?_⟩
  simp only [files] at h
  cases hfound : s.texts.find? (·.1 == s.files.canonical p) with
  | none =>
    simp only [files] at hfound
    rw [hfound] at h
    cases h
  | some entry =>
    have hkey := List.find?_some hfound
    exact List.mem_map.2 ⟨entry, List.mem_of_find?_eq_some hfound, eq_of_beq hkey⟩

namespace Tree

variable {t : Tree} {place : List String}

def places (t : Tree) : List (List String) := (t.home :: t.nodes.map (·.1)).flatMap List.inits

theorem mem_places {t : Tree} {place : List String} :
    place ∈ t.places ↔ ∃ below ∈ t.home :: t.nodes.map (·.1), place <+: below := by
  simp only [places, List.mem_flatMap, List.mem_inits]

theorem prefix_of_mem_ancestors {below : List String} (h : place ∈ ancestors below) :
    place <+: below := by
  obtain ⟨n, _, rfl⟩ := List.mem_map.1 h
  exact List.take_prefix n below

theorem mem_places_of_implied (h : place ∈ t.implied) : place ∈ t.places := by
  refine mem_places.2 ?_
  rcases List.mem_append.1 h with h | h
  · refine ⟨t.home, List.mem_cons_self, ?_⟩
    rcases List.mem_cons.1 h with rfl | h
    · exact List.prefix_rfl
    · exact prefix_of_mem_ancestors h
  · obtain ⟨entry, hentry, h⟩ := List.mem_flatMap.1 h
    have hkey : entry.1 ∈ t.nodes.map (·.1) := List.mem_map_of_mem hentry
    exact ⟨entry.1, List.mem_cons_of_mem _ hkey, prefix_of_mem_ancestors h⟩

theorem mem_places_of_node? {node : Node} (h : t.node? place = some node) : place ∈ t.places := by
  unfold node? at h
  split at h
  · rename_i entry hfound
    have hkey := List.find?_some hfound
    have hmem : place ∈ t.nodes.map (·.1) :=
      List.mem_map.2 ⟨_, List.mem_of_find?_eq_some hfound, eq_of_beq hkey⟩
    exact mem_places.2 ⟨place, List.mem_cons_of_mem _ hmem, List.prefix_rfl⟩
  · split at h
    · rename_i himplied
      simp only [Bool.or_eq_true, decide_eq_true_eq, List.contains_iff_mem] at himplied
      rcases himplied with rfl | himplied
      · exact mem_places.2 ⟨t.home, List.mem_cons_self, List.nil_prefix⟩
      · exact mem_places_of_implied himplied
    · cases h

theorem directory_eq {place' : List String} (h : t.directory place = .ok place') :
    place' = place := by
  unfold directory at h
  split at h
  · cases h; rfl
  · cases h
  · cases h

theorem step_mem_places {part : List Char} {next : List String} (hp : place ∈ t.places)
    (h : t.step place part = .ok next) : next ∈ t.places := by
  unfold step at h
  cases hd : t.directory place with
  | error e => rw [hd] at h; cases h
  | ok place' =>
    obtain rfl := directory_eq hd
    rw [hd] at h
    simp only [bind, Except.bind] at h
    split at h
    · cases h; exact hp
    · cases h; exact hp
    · cases h
      obtain ⟨below, hbelow, hprefix⟩ := mem_places.1 hp
      exact mem_places.2 ⟨below, hbelow, (List.dropLast_prefix _).trans hprefix⟩
    · split at h
      · cases h
      · split at h
        · rename_i node hnode
          cases h
          exact mem_places_of_node? hnode
        · cases h

theorem foldlM_mem_places {parts : List (List Char)} {next : List String} (hp : place ∈ t.places)
    (h : parts.foldlM t.step place = .ok next) : next ∈ t.places := by
  induction parts generalizing place with
  | nil => cases h; exact hp
  | cons part rest ih =>
    rw [List.foldlM_cons] at h
    cases hs : t.step place part with
    | error e => rw [hs] at h; cases h
    | ok place' =>
      rw [hs] at h
      exact ih (step_mem_places hp hs) h

theorem find_mem_places {p : Path} (h : t.find p = .ok place) : place ∈ t.places := by
  unfold find at h
  split at h
  · cases h
  · split at h
    · cases h
    · split at h
      · cases h
      · refine foldlM_mem_places (mem_places.2 ⟨t.home, List.mem_cons_self, ?_⟩) h
        split
        · exact List.nil_prefix
        · exact List.prefix_rfl

theorem finite_files (t : Tree) : t.files.Finite := by
  refine ⟨t.places.map Path.ofNames, fun p source h => Path.isAmong_of_mem ?_⟩
  cases hfind : t.find p with
  | error e =>
    simp only [files, canonical, read, hfind] at h
    cases h
  | ok place =>
    simp only [files, canonical, hfind]
    exact List.mem_map_of_mem (find_mem_places hfind)

end Tree

end Spellbook
