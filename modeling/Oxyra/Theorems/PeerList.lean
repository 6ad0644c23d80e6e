import Oxyra.Core.PeerList

/-!
# One white-list entry a host

Before a new address is put on the white list the entries of the same host are to
be evicted from it, so that one machine cannot fill the list with its ports.
`evict_host_from_peerlist` asks `filter` for the white list and gets the gray one:
the white list keeps the other ports, and the gray list loses them.
-/

namespace Oxyra

namespace PeerlistManager

variable {m : PeerlistManager} {ple e : PeerlistEntry} {trustLastSeen : Bool}

/-- No two entries of the white list have the same host. -/
def OneHost (m : PeerlistManager) : Prop :=
  ∀ a ∈ m.white, ∀ b ∈ m.white, a.adr.isSameHost b.adr = true → a = b

/-- The peer gets an entry of its own on the white list. -/
def EntersWhite (m : PeerlistManager) (ple : PeerlistEntry) : Prop :=
  m.isHostAllowed ple.adr = true ∧ ∀ w ∈ m.white, w.adr ≠ ple.adr

/-- The condition on a peer to be added: where it gets an entry of its own, its host
has none. -/
def WhiteOk (m : PeerlistManager) (ple : PeerlistEntry) : Prop :=
  m.EntersWhite ple → ∀ w ∈ m.white, w.adr.isSameHost ple.adr = false

/-! ## What a call leaves -/

theorem mem_gray_appendWithPeerWhite (hallowed : m.isHostAllowed ple.adr = true) :
    e ∈ (m.appendWithPeerWhite ple trustLastSeen).gray ↔
      e ∈ m.gray ∧ e.adr ≠ ple.adr ∧
        (m.EntersWhite ple → e.adr.isSameHost ple.adr = false) := by
  rw [appendWithPeerWhite, if_neg (by simp [hallowed])]
  simp only [MultiIndex.mem_erase]
  unfold enterWhite
  cases hfind : m.white.find? ple.adr with
  | none =>
    -- the eviction has gone through the gray list
    have henters : m.EntersWhite ple := ⟨hallowed, MultiIndex.find?_eq_none.mp hfind⟩
    simp only [trimWhitePeerlist, evictHostFromPeerlist, filter, if_true,
      MultiIndex.mem_filter, Bool.not_eq_true']
    tauto
  | some old =>
    have hnot : ¬ m.EntersWhite ple := fun henters =>
      henters.2 old (MultiIndex.mem_of_find? hfind).1 (MultiIndex.mem_of_find? hfind).2
    simp [hnot]

theorem mem_white_appendWithPeerWhite
    (h : e ∈ (m.appendWithPeerWhite ple trustLastSeen).white) :
    e ∈ m.white ∨ e = ple ∧ m.EntersWhite ple ∨
      e.adr = ple.adr ∧ ∃ old ∈ m.white, old.adr = ple.adr := by
  unfold appendWithPeerWhite at h
  split at h
  · exact .inl h
  rename_i hallowed
  have hallowed : m.isHostAllowed ple.adr = true := by simpa using hallowed
  simp only [enterWhite] at h
  cases hfind : m.white.find? ple.adr with
  | none =>
    simp only [hfind] at h
    rcases MultiIndex.mem_insert.mp (MultiIndex.mem_of_mem_trim h) with hold | ⟨rfl, hfree⟩
    · exact .inl hold
    · exact .inr (.inl ⟨rfl, hallowed, hfree⟩)
  | some old =>
    obtain ⟨hold, hadr⟩ := MultiIndex.mem_of_find? hfind
    simp only [hfind] at h
    have hkey : old.adr = (updated old ple trustLastSeen).adr := hadr
    rcases (MultiIndex.mem_replace ⟨old, hold, hkey⟩).mp h with rfl | ⟨hother, -⟩
    · exact .inr (.inr ⟨rfl, old, hold, hadr⟩)
    · exact .inl hother

theorem white_with_gray (gray : PeersIndexed) : { m with gray }.white = m.white := rfl

@[simp] theorem white_trimGrayPeerlist : m.trimGrayPeerlist.white = m.white :=
  white_with_gray (m.gray.trim grayPeerlistLimit)

@[simp] theorem white_appendWithPeerGray : (m.appendWithPeerGray ple).white = m.white := by
  unfold appendWithPeerGray
  split
  · rfl
  split
  · rfl
  cases m.gray.find? ple.adr with
  | none => exact white_trimGrayPeerlist
  | some old => rfl

@[simp] theorem white_mergePeerlist (outerBs : List PeerlistEntry) (f : PeerlistEntry → Bool) :
    (m.mergePeerlist outerBs f).white = m.white := by
  unfold mergePeerlist trimGrayPeerlist
  induction outerBs generalizing m with
  | nil => rfl
  | cons be outerBs ih =>
    rw [List.foldl_cons, ih]
    split
    · exact white_appendWithPeerGray
    · rfl

/-! ## One entry a host -/

/-- **A white peer of a new host keeps one entry a host.** -/
theorem OneHost.appendWithPeerWhite (hone : m.OneHost) (hok : m.WhiteOk ple) :
    (m.appendWithPeerWhite ple trustLastSeen).OneHost := by
  intro a ha b hb hhost
  -- entries of one address are one entry: the index does not hold two
  have hsame : a.adr = b.adr → a = b := MultiIndex.eq_of_key_eq ha hb
  have hfrom := mem_white_appendWithPeerWhite ha
  have hfrom' := mem_white_appendWithPeerWhite hb
  clear ha hb
  rcases hfrom with ha | ⟨rfl, henters⟩ | ⟨hadr, wa, hwa, hwadr⟩ <;>
    rcases hfrom' with hb | ⟨rfl, henters'⟩ | ⟨hadr', wb, hwb, hwadr'⟩
  · exact hone a ha b hb hhost
  · exact absurd hhost (by simp [hok henters' a ha])
  · -- the replaced entry had the address, so it and `a` were one entry
    refine hsame ?_
    rw [hone a ha wb hwb (by rwa [hwadr', ← hadr']), hwadr', hadr']
  · rw [NetworkAddress.isSameHost_comm] at hhost
    exact absurd hhost (by simp [hok henters b hb])
  · rfl
  · exact absurd hwadr' (henters.2 wb hwb)
  · refine hsame ?_
    rw [hadr, ← hwadr, hone wa hwa b hb (by rwa [hwadr, ← hadr])]
  · exact absurd hwadr (henters'.2 wa hwa)
  · exact hsame (hadr.trans hadr'.symm)

def Call.whitePeer : Call → Option PeerlistEntry
  | .appendWhite ple _ => some ple
  | .justSeen peer addr pruningSeed rpcPort rpcCreditsPerHash now =>
    some ⟨addr, peer, now, pruningSeed, rpcPort, rpcCreditsPerHash⟩
  | .appendGray _ => none
  | .merge _ _ => none

def CallOk (m : PeerlistManager) (c : Call) : Prop := ∀ ple ∈ c.whitePeer, m.WhiteOk ple

def CallsOk (m : PeerlistManager) : List Call → Prop
  | [] => True
  | c :: cs => m.CallOk c ∧ (m.call c).CallsOk cs

theorem OneHost.call {c : Call} (hone : m.OneHost) (hok : m.CallOk c) : (m.call c).OneHost := by
  cases c with
  | appendWhite ple trustLastSeen => exact hone.appendWithPeerWhite (hok ple rfl)
  | justSeen peer addr pruningSeed rpcPort rpcCreditsPerHash now =>
    exact hone.appendWithPeerWhite (hok _ rfl)
  | appendGray ple =>
    simpa only [OneHost, PeerlistManager.call, white_appendWithPeerGray] using hone
  | merge outerBs f => simpa only [OneHost, PeerlistManager.call, white_mergePeerlist] using hone

theorem OneHost.calls {cs : List Call} (hone : m.OneHost) (hok : m.CallsOk cs) :
    (m.calls cs).OneHost := by
  induction cs generalizing m with
  | nil => exact hone
  | cons c cs ih => exact ih (hone.call hok.1) hok.2

theorem gray_kept_iff :
    (∀ g ∈ m.gray, g.adr ≠ ple.adr → g ∈ (m.appendWithPeerWhite ple trustLastSeen).gray) ↔
      (m.EntersWhite ple →
        ∀ g ∈ m.gray, g.adr ≠ ple.adr → g.adr.isSameHost ple.adr = false) := by
  by_cases hallowed : m.isHostAllowed ple.adr = true
  · simp only [mem_gray_appendWithPeerWhite hallowed]
    constructor
    · intro hkept henters g hg hne
      exact (hkept g hg hne).2.2 henters
    · intro hfree g hg hne
      exact ⟨hg, hne, fun henters => hfree henters g hg hne⟩
  · have hnot : ¬ m.EntersWhite ple := fun henters => hallowed henters.1
    rw [appendWithPeerWhite, if_pos (by simpa using hallowed)]
    exact ⟨fun _ henters => absurd henters hnot, fun _ g hg _ => hg⟩

/-- **One white-list entry a host.** From empty lists, as long as every address new to
the white list is of a host the list does not have, no two entries of the white list
have the same host; and adding a white peer then removes no gray entry of
another address exactly where it brings no further address of a gray host. -/
theorem one_entry_per_host (allowLocalIp : Bool) (cs : List Call)
    (hok : (init allowLocalIp).CallsOk cs) :
    ((init allowLocalIp).calls cs).OneHost ∧
      ∀ m : PeerlistManager, m = (init allowLocalIp).calls cs → ∀ ple trustLastSeen,
        ((∀ g ∈ m.gray, g.adr ≠ ple.adr →
            g ∈ (m.appendWithPeerWhite ple trustLastSeen).gray) ↔
          (m.EntersWhite ple →
            ∀ g ∈ m.gray, g.adr ≠ ple.adr → g.adr.isSameHost ple.adr = false)) := by
  have hempty : (init allowLocalIp).OneHost := fun a ha =>
    absurd ha MultiIndex.not_mem_empty
  exact ⟨hempty.calls hok, fun m _ ple trustLastSeen => gray_kept_iff⟩

/-- A machine at one address, with the ports it listens on. -/
def portOf (port : UInt16) : PeerlistEntry := ⟨.ipv4 0x04030201 port, 0, 100, 0, 0, 0⟩

/-- A peer that is added twice, heard of in between and merged with itself. -/
theorem one_entry_per_host_seen_again :
    let cs := [.appendWhite (portOf 1) false, .merge [portOf 1] fun _ => true,
      .justSeen 7 (portOf 1).adr 0 0 0 200]
    (init false).CallsOk cs ∧ ((init false).calls cs).OneHost := by
  have hok : (init false).CallsOk [.appendWhite (portOf 1) false, .merge [portOf 1] fun _ => true,
      .justSeen 7 (portOf 1).adr 0 0 0 200] := by
    refine ⟨?_, ?_, ?_, trivial⟩
    · rintro ple ⟨⟩
      exact fun _ w hw => absurd hw MultiIndex.not_mem_empty
    · rintro ple ⟨⟩
    · rintro ple ⟨⟩
      have hknown : ∃ w ∈ ((init false).calls [.appendWhite (portOf 1) false,
          .merge [portOf 1] fun _ => true]).white, w.adr = (portOf 1).adr :=
        ⟨portOf 1, by decide +kernel, rfl⟩
      obtain ⟨w, hw, hadr⟩ := hknown
      exact fun henters => absurd hadr (henters.2 w hw)
  exact ⟨hok, (one_entry_per_host false _ hok).1⟩

/-- **Two ports of one machine** are on the white list after both are added, and a
third port the node has heard of is lost from the gray list. -/
theorem two_ports_of_one_host :
    let m := (init false).calls [.appendGray (portOf 3), .appendWhite (portOf 1) false,
      .appendWhite (portOf 2) false]
    portOf 1 ∈ m.white ∧ portOf 2 ∈ m.white ∧
      (portOf 1).adr.isSameHost (portOf 2).adr = true ∧ portOf 1 ≠ portOf 2 ∧
      portOf 3 ∈ ((init false).call (.appendGray (portOf 3))).gray ∧
      (portOf 3).adr ≠ (portOf 1).adr ∧
      portOf 3 ∉ (((init false).call (.appendGray (portOf 3))).appendWithPeerWhite
        (portOf 1) false).gray := by
  decide +kernel

end PeerlistManager

end Oxyra
