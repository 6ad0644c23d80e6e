import Oxyra.Theorems.PeerList

/-!
# A received peer list is harmless

`merge_peerlist` folds the entries of an untrusted list into the gray list, one by one and with
trimming after each. The white list is not touched, and an entry that stays on the gray list keeps
what the node knew of the peer.
-/

namespace Oxyra

namespace PeerlistManager

variable {m : PeerlistManager} {ple e e' : PeerlistEntry} {f : PeerlistEntry → Bool}

/-- The later entry has the address and the time of the earlier one, and what was known is still
known. -/
structure Keeps (e e' : PeerlistEntry) : Prop where
  adr : e'.adr = e.adr
  lastSeen : e'.lastSeen = e.lastSeen
  pruningSeed : e.pruningSeed ≠ 0 → e'.pruningSeed ≠ 0
  rpcPort : e.rpcPort ≠ 0 → e'.rpcPort ≠ 0

theorem Keeps.refl (e : PeerlistEntry) : Keeps e e := ⟨rfl, rfl, id, id⟩

theorem Keeps.trans {e'' : PeerlistEntry} (h : Keeps e e') (h' : Keeps e' e'') : Keeps e e'' :=
  ⟨h'.adr.trans h.adr, h'.lastSeen.trans h.lastSeen, fun hne => h'.pruningSeed (h.pruningSeed hne),
    fun hne => h'.rpcPort (h.rpcPort hne)⟩

theorem keeps_updated (hadr : ple.adr = e.adr) : Keeps e (updated e ple false) := by
  refine ⟨hadr, rfl, fun hseed => ?_, fun hport => ?_⟩
  · simp only [updated]
    split
    · exact hseed
    · rename_i hnot
      exact fun hzero => hnot ⟨hseed, hzero⟩
  · simp only [updated]
    split
    · exact hport
    · rename_i hnot
      exact fun hzero => hnot ⟨hport, hzero⟩

def mergeStep (f : PeerlistEntry → Bool) (m : PeerlistManager) (be : PeerlistEntry) :
    PeerlistManager :=
  if f be then m.appendWithPeerGray be else m

theorem mergePeerlist_eq (outerBs : List PeerlistEntry) :
    m.mergePeerlist outerBs f = (outerBs.foldl (mergeStep f) m).trimGrayPeerlist := rfl

/-- What is on the gray list after a peer is heard of: what was there before, the peer itself where
it is new to both lists, and the entry of its address brought up to date. -/
theorem mem_gray_appendWithPeerGray (h : e' ∈ (m.appendWithPeerGray ple).gray) :
    e' ∈ m.gray ∨ (∀ w ∈ m.white, w.adr ≠ ple.adr) ∧
      (e' = ple ∧ (∀ g ∈ m.gray, g.adr ≠ ple.adr) ∨
        ∃ old ∈ m.gray, old.adr = ple.adr ∧ e' = updated old ple false) := by
  unfold appendWithPeerGray at h
  split at h
  · exact .inl h
  split at h
  · exact .inl h
  rename_i hwhite
  have hwhite : ∀ w ∈ m.white, w.adr ≠ ple.adr :=
    MultiIndex.find?_eq_none.mp (Option.not_isSome_iff_eq_none.mp hwhite)
  cases hfind : m.gray.find? ple.adr with
  | none =>
    rw [hfind] at h
    rcases MultiIndex.mem_insert.mp (MultiIndex.mem_of_mem_trim h) with hold | ⟨rfl, hfree⟩
    · exact .inl hold
    · exact .inr ⟨hwhite, .inl ⟨rfl, hfree⟩⟩
  | some old =>
    rw [hfind] at h
    obtain ⟨hold, hadr⟩ := MultiIndex.mem_of_find? hfind
    have hkey : old.adr = (updated old ple false).adr := hadr
    rcases (MultiIndex.mem_replace ⟨old, hold, hkey⟩).mp h with rfl | ⟨hother, -⟩
    · exact .inr ⟨hwhite, .inr ⟨old, hold, hadr, rfl⟩⟩
    · exact .inl hother

/-- **One entry of the received list**: if an address is on the gray list before and after it, what
was known of the peer is kept. -/
theorem keeps_step (he : e ∈ m.gray) (he' : e' ∈ (mergeStep f m ple).gray) (hadr : e'.adr = e.adr) :
    Keeps e e' := by
  unfold mergeStep at he'
  have hsame : e' ∈ m.gray → Keeps e e' := fun hmem =>
    MultiIndex.eq_of_key_eq hmem he hadr ▸ Keeps.refl e'
  split at he'
  · rcases mem_gray_appendWithPeerGray he' with hold | ⟨-, ⟨rfl, hfree⟩ | ⟨old, hold, hkey, rfl⟩⟩
    · exact hsame hold
    · -- a new address is not that of an entry
      exact absurd hadr.symm (hfree e he)
    · obtain rfl : old = e := MultiIndex.eq_of_key_eq hold he (hkey.trans hadr)
      exact keeps_updated hkey.symm
  · exact hsame he'

def Disjoint (m : PeerlistManager) : Prop := ∀ w ∈ m.white, ∀ g ∈ m.gray, w.adr ≠ g.adr

theorem Disjoint.mergeStep (h : m.Disjoint) : (m.mergeStep f ple).Disjoint := by
  unfold PeerlistManager.mergeStep
  split
  · intro w hw g hg
    rw [white_appendWithPeerGray] at hw
    rcases mem_gray_appendWithPeerGray hg with hold | ⟨hwhite, ⟨rfl, -⟩ | ⟨old, hold, hkey, rfl⟩⟩
    · exact h w hw g hold
    · exact hwhite w hw
    · exact hwhite w hw
  · exact h

/-- The lists before the merge, after each entry of the received list, and after the last
trimming. -/
def mergeStages (m : PeerlistManager) (outerBs : List PeerlistEntry) (f : PeerlistEntry → Bool) :
    List PeerlistManager :=
  outerBs.scanl (mergeStep f) m ++ [m.mergePeerlist outerBs f]

/-- The entry's address is on the gray list all through the merge. -/
def NotEvicted (m : PeerlistManager) (outerBs : List PeerlistEntry) (f : PeerlistEntry → Bool)
    (e : PeerlistEntry) : Prop :=
  ∀ t ∈ m.mergeStages outerBs f, ∃ g ∈ t.gray, g.adr = e.adr

theorem keeps_foldl (outerBs : List PeerlistEntry) (he : e ∈ m.gray)
    (hstays : ∀ t ∈ outerBs.scanl (mergeStep f) m, ∃ g ∈ t.gray, g.adr = e.adr) :
    ∃ e' ∈ (outerBs.foldl (mergeStep f) m).gray, Keeps e e' := by
  induction outerBs generalizing m e with
  | nil => exact ⟨e, he, .refl e⟩
  | cons be outerBs ih =>
    rw [List.scanl_cons] at hstays
    have hhead : m.mergeStep f be ∈ outerBs.scanl (mergeStep f) (m.mergeStep f be) := by
      cases outerBs <;> simp
    obtain ⟨g, hg, hadr⟩ := hstays _ (List.mem_cons_of_mem _ hhead)
    have hkeeps : Keeps e g := keeps_step he hg hadr
    obtain ⟨e', he', hkeeps'⟩ := ih hg fun t ht => by
      obtain ⟨g', hg', hadr'⟩ := hstays t (List.mem_cons_of_mem _ ht)
      exact ⟨g', hg', hadr'.trans hadr.symm⟩
    exact ⟨e', he', hkeeps.trans hkeeps'⟩

theorem disjoint_foldl (outerBs : List PeerlistEntry) (h : m.Disjoint) :
    (outerBs.foldl (mergeStep f) m).Disjoint := by
  induction outerBs generalizing m with
  | nil => exact h
  | cons be outerBs ih => exact ih h.mergeStep

/-- **Merging a received list is harmless.** -/
theorem merge_harmless (m : PeerlistManager) (h : m.Disjoint) (outerBs : List PeerlistEntry)
    (f : PeerlistEntry → Bool) :
    (m.mergePeerlist outerBs f).white = m.white ∧
      (∀ e ∈ m.gray, m.NotEvicted outerBs f e →
        ∃ e' ∈ (m.mergePeerlist outerBs f).gray, Keeps e e') ∧
      (m.mergePeerlist outerBs f).Disjoint ∧
      (m.mergePeerlist outerBs f).gray.entries.length ≤ grayPeerlistLimit := by
  refine ⟨white_mergePeerlist outerBs f, fun e he hstays => ?_, ?_, ?_⟩
  · obtain ⟨e', he', hkeeps⟩ := keeps_foldl outerBs he fun t ht =>
      hstays t (List.mem_append_left _ ht)
    -- the last trimming leaves the entry or takes it
    obtain ⟨g, hg, hadr⟩ := hstays _ (List.mem_append_right _ (List.mem_singleton_self _))
    have hsame : g = e' := MultiIndex.eq_of_key_eq (MultiIndex.mem_of_mem_trim hg) he'
      (hadr.trans hkeeps.adr.symm)
    exact ⟨g, hg, hsame ▸ hkeeps⟩
  · intro w hw g hg
    rw [mergePeerlist_eq, white_trimGrayPeerlist] at hw
    exact disjoint_foldl outerBs h w hw g (MultiIndex.mem_of_mem_trim hg)
  · exact MultiIndex.length_trim_le

/-- A peer that is known with its seed, and heard of again without it and at another time. -/
theorem merge_harmless_heard_again :
    let known : PeerlistEntry := ⟨.ipv4 0x04030201 1, 0, 100, 385, 0, 0⟩
    let m := (init false).appendWithPeerGray known
    ∃ e' ∈ (m.mergePeerlist [portOf 1, portOf 2] fun _ => true).gray, Keeps known e' := by
  intro known m
  have hdisjoint : m.Disjoint := fun w hw => absurd hw (by decide +revert +kernel)
  refine (merge_harmless m hdisjoint [portOf 1, portOf 2] fun _ => true).2.1 known
    (by decide +kernel) ?_
  have hstages : ∀ t ∈ m.mergeStages [portOf 1, portOf 2] fun _ => true,
      (t.gray.find? known.adr).isSome = true := by decide +kernel
  intro t ht
  obtain ⟨g, hg⟩ := Option.isSome_iff_exists.mp (hstages t ht)
  exact ⟨g, MultiIndex.mem_of_find? hg⟩

end PeerlistManager

end Oxyra
