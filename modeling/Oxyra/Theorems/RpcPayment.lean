import Oxyra.Lib.Generations
import Oxyra.Core.RpcPayment

/-!
# RPC payment credits nothing twice

A record's cookie counts its templates, and the two sets of nonces are a duplicate filter
over two generations of them. While the cookie does not wrap, it names the template that was
handed out with it.
-/

namespace Oxyra.Rpc

open Generations

variable {p : Payment} {info : ClientInfo} {client : PublicKey} {answer : Answer}
  {clients : Clients} {r : Request}

/-! ## What a history says -/

/-- The calls on one record with their answers, the last one first. -/
abbrev History := List (Call × Answer)

def credited (h : History) : List (UInt32 × UInt32) :=
  h.filterMap fun
    | (.submitNonce nonce cookie, .submitted (.ok _)) => some (cookie, nonce)
    | _ => none

def handedOut (h : History) : List InfoAnswer :=
  h.filterMap fun
    | (_, .info answer) => answer
    | _ => none

def paid (h : History) : Nat :=
  (h.map fun
    | (.pay _ payment _, .paid true _) => payment.toNat
    | _ => 0).sum

def deposited (h : History) : Nat :=
  (h.map fun
    | (.balance delta, _) => delta.toInt.toNat
    | _ => 0).sum

/-! ## Amounts -/

theorem toNat_add64clamp_le (value add : UInt64) :
    (add64clamp value add).toNat ≤ value.toNat + add.toNat := by
  have hv := value.toNat_lt
  have ha := add.toNat_lt
  unfold add64clamp
  split
  · rename_i h
    rw [gt_iff_lt, UInt64.lt_iff_toNat_lt, UInt64.toNat_sub] at h
    have hmax : (UInt64.ofNat (2 ^ 64 - 1)).toNat = 2 ^ 64 - 1 := rfl
    omega
  · rw [UInt64.toNat_add]
    exact Nat.mod_le _ _

theorem toNat_sub64clamp_le (value sub : UInt64) : (sub64clamp value sub).toNat ≤ value.toNat := by
  unfold sub64clamp
  split
  · exact Nat.zero_le _
  · rename_i h
    rw [UInt64.toNat_sub_of_le _ _ (UInt64.not_lt.mp h)]
    exact Nat.sub_le _ _

theorem toNat_toUInt64_pos {delta : Int64} (h : 0 < delta) :
    delta.toUInt64.toNat = delta.toInt.toNat :=
  Int64.toNat_toUInt64_of_le (Int64.le_of_lt h)

theorem toNat_balance_le (info : ClientInfo) (delta : Int64) :
    (info.balance delta).1.toNat ≤ info.credits.toNat + delta.toInt.toNat := by
  rcases lt_trichotomy (0 : Int) delta.toInt with hpos | hzero | hneg
  · have hpos : 0 < delta := Int64.lt_iff_toInt_lt.mpr hpos
    have hadd : (info.balance delta).1 = add64clamp info.credits delta.toUInt64 := by
      have hnot : ¬ delta < 0 := fun h => Int64.lt_irrefl (Int64.lt_trans hpos h)
      simp only [ClientInfo.balance, add64clamp, hpos, hnot, true_and, false_and, if_false]
    rw [hadd, ← toNat_toUInt64_pos hpos]
    exact toNat_add64clamp_le _ _
  · obtain rfl : delta = 0 := Int64.toInt_inj.mp hzero.symm
    have hword : (0 : Int64).toUInt64 = 0 := rfl
    have hsame : (info.balance 0).1 = info.credits := by
      simp [ClientInfo.balance, hword]
    rw [hsame]
    exact Nat.le_add_right _ _
  · have hneg : delta < 0 := Int64.lt_iff_toInt_lt.mpr hneg
    have hsub : (info.balance delta).1 = sub64clamp info.credits (-delta).toUInt64 := by
      have hnot : ¬ 0 < delta := fun h => Int64.lt_irrefl (Int64.lt_trans hneg h)
      have hdiff : info.credits + delta.toUInt64 = info.credits - (-delta).toUInt64 := by
        rw [Int64.toUInt64_neg, UInt64.sub_neg]
      simp only [ClientInfo.balance, sub64clamp, hneg, hnot, true_and, false_and, if_false, hdiff]
    rw [hsub]
    exact (toNat_sub64clamp_le _ _).trans (Nat.le_add_right _ _)

/-! ## What is kept -/

/-- A block template as it was handed out. -/
structure Template where
  block : Block := {}
  hashingBlob : List UInt8 := []
  seedHash : Hash := nullHash

/-- The nonce solves the template. -/
def Payment.Meets (p : Payment) (t : Template) (nonce : UInt32) : Prop :=
  checkHash (p.slowHash t.block t.seedHash (withNonce t.hashingBlob nonce)) p.diff.toNat = true

namespace ClientInfo

def template (info : ClientInfo) : Template :=
  ⟨info.block, info.hashingBlob, info.seedHash⟩

def previousTemplate (info : ClientInfo) : Template :=
  ⟨info.previousBlock, info.previousHashingBlob, info.previousSeedHash⟩

def nonces (info : ClientInfo) (k : Nat) : Generations UInt32 :=
  ⟨k, info.payments, info.previousPayments⟩

/-- The members that only `get_info` and a submission change. -/
structure SameTemplates (info info' : ClientInfo) : Prop where
  cookie : info'.cookie = info.cookie
  template : info'.template = info.template
  previous : info'.previousTemplate = info.previousTemplate
  nonces : ∀ k, info'.nonces k = info.nonces k

theorem SameTemplates.refl (info : ClientInfo) : info.SameTemplates info :=
  ⟨rfl, rfl, rfl, fun _ => rfl⟩

theorem sameTemplates_credits (info : ClientInfo) (credits : UInt64) :
    info.SameTemplates { info with credits := credits } :=
  ⟨rfl, rfl, rfl, fun _ => rfl⟩

theorem sameTemplates_pay (info : ClientInfo) (ts credits : UInt64) :
    info.SameTemplates { info with lastRequestTimestamp := ts, credits := credits } :=
  ⟨rfl, rfl, rfl, fun _ => rfl⟩

end ClientInfo

def numbered (h : History) : List (Nat × UInt32) :=
  (credited h).map fun c => (c.1.toNat, c.2)

/-- The templates of a record: the first stands for none, and each of the others was handed
out with its number as the cookie. -/
structure Templates (p : Payment) (info : ClientInfo) (h : History) (k : Nat)
    (templates : Nat → Template) : Prop where
  cookie : info.cookie.toNat = k
  current : info.template = templates k
  previous : ∀ j, j + 1 = k → info.previousTemplate = templates j
  first : (templates 0).hashingBlob = [] ∧ (k = 0 → info.previousHashingBlob = [])
  blobs : ∀ j, 1 ≤ j → j ≤ k →
    (templates j).hashingBlob = p.getBlockHashingBlob (templates j).block
  handed : ∀ a ∈ handedOut h, a.cookie.toNat ≤ k ∧
    a.hashingBlob = (templates a.cookie.toNat).hashingBlob ∧
    a.seedHash = (templates a.cookie.toNat).seedHash
  known : ∀ j, 1 ≤ j → j < k → ∃ a ∈ handedOut h, a.cookie.toNat = j

/-- What holds of a record, the history of the calls on it and the number of its templates,
whether or not the last one has been handed out. -/
structure Held (p : Payment) (info : ClientInfo) (h : History) (k : Nat)
    (templates : Nat → Template) : Prop extends Templates p info h k templates where
  remembers : (info.nonces k).Remembers (numbered h)
  met : ∀ c ∈ credited h, 1 ≤ c.1.toNat ∧ c.1.toNat ≤ k ∧ p.Meets (templates c.1.toNat) c.2
  ledger : info.credits.toNat + paid h ≤
    p.creditsPerHashFound.toNat * (credited h).length + deposited h

/-- What holds between two calls. -/
structure Kept (p : Payment) (info : ClientInfo) (h : History) (k : Nat)
    (templates : Nat → Template) : Prop extends Held p info h k templates where
  latest : 1 ≤ k → ∃ a ∈ handedOut h, a.cookie.toNat = k

theorem kept_created (p : Payment) (created : UInt64) :
    Kept p { updateTime := created } [] 0 fun _ => {} where
  cookie := rfl
  current := rfl
  previous := fun j hj => absurd hj (Nat.succ_ne_zero j)
  first := ⟨rfl, fun _ => rfl⟩
  blobs := fun j h1 h2 => absurd (h1.trans h2) (by decide)
  handed := fun a ha => by cases ha
  known := fun j _ h2 => absurd h2 (Nat.not_lt_zero j)
  remembers := remembers_nil _
  met := fun c hc => by cases hc
  ledger := by simp [paid, credited, deposited]
  latest := fun h => absurd h (by decide)

/-- The template a nonce is checked against. -/
def ClientInfo.checked (info : ClientInfo) (isCurrent : Bool) : Template :=
  if isCurrent then info.template else info.previousTemplate

theorem checkNonce_cases (p : Payment) (info : ClientInfo) (isCurrent : Bool) (nonce : UInt32)
    (now : UInt64) :
    (∃ penalty code message,
      info.checkNonce p isCurrent nonce now = info.refuse p penalty code message) ∨
    (∃ error, info.checkNonce p isCurrent nonce now = (.error error, info)) ∨
    (∃ answer, (info.checked isCurrent).hashingBlob ≠ [] ∧
      p.Meets (info.checked isCurrent) nonce ∧
      info.checkNonce p isCurrent nonce now =
        (.ok answer,
          { info with credits := add64clamp info.credits p.creditsPerHashFound })) := by
  have hparts : (if isCurrent then info.hashingBlob else info.previousHashingBlob) =
        (info.checked isCurrent).hashingBlob ∧
      (if isCurrent then info.block else info.previousBlock) = (info.checked isCurrent).block ∧
      (if isCurrent then info.seedHash else info.previousSeedHash) =
        (info.checked isCurrent).seedHash := by
    cases isCurrent <;> exact ⟨rfl, rfl, rfl⟩
  obtain ⟨hblob, hblock, hseed⟩ := hparts
  unfold ClientInfo.checkNonce
  rw [hblob, hblock, hseed]
  split
  · exact .inl ⟨_, _, _, rfl⟩
  dsimp only
  split
  · exact .inr (.inl ⟨_, rfl⟩)
  rename_i hlong
  split
  · rename_i hmeets
    refine .inr (.inr ⟨_, fun hnil => hlong ?_, hmeets, rfl⟩)
    rw [hnil]
    decide
  · exact .inl ⟨_, _, _, rfl⟩

section Calls

variable {h : History} {k : Nat} {templates : Nat → Template}

theorem Templates.same (ht : Templates p info h k templates) {info' : ClientInfo} {call : Call}
    (hsame : info.SameTemplates info') (hhanded : handedOut ((call, answer) :: h) = handedOut h) :
    Templates p info' ((call, answer) :: h) k templates where
  cookie := hsame.cookie ▸ ht.cookie
  current := hsame.template.trans ht.current
  previous j hj := hsame.previous.trans (ht.previous j hj)
  first := ⟨ht.first.1, fun hk => by
    rw [show info'.previousHashingBlob = info'.previousTemplate.hashingBlob from rfl,
      hsame.previous]
    exact ht.first.2 hk⟩
  blobs := ht.blobs
  handed := hhanded.symm ▸ ht.handed
  known := hhanded.symm ▸ ht.known

theorem Kept.amounts (hk : Kept p info h k templates) {info' : ClientInfo} {call : Call}
    (hsame : info.SameTemplates info') (hhanded : handedOut ((call, answer) :: h) = handedOut h)
    (hcredited : credited ((call, answer) :: h) = credited h)
    (hledger : info'.credits.toNat + paid ((call, answer) :: h) ≤
      info.credits.toNat + paid h + (deposited ((call, answer) :: h) - deposited h))
    (hdeposited : deposited h ≤ deposited ((call, answer) :: h)) :
    Kept p info' ((call, answer) :: h) k templates where
  toTemplates := hk.toTemplates.same hsame hhanded
  latest := hhanded.symm ▸ hk.latest
  remembers := by
    rw [hsame.nonces, numbered, hcredited]
    exact hk.remembers
  met := hcredited.symm ▸ hk.met
  ledger := by
    have := hk.ledger
    rw [hcredited]
    omega

theorem Kept.balance (hk : Kept p info h k templates) (delta : Int64) :
    Kept p (info.balance delta).2
      ((.balance delta, .balance (info.balance delta).1) :: h) k templates := by
  have hcredits : (info.balance delta).2.credits = (info.balance delta).1 := rfl
  refine hk.amounts (info.sameTemplates_credits _) rfl rfl ?_ ?_
  · have hle := toNat_balance_le info delta
    rw [hcredits]
    simp only [paid, deposited, List.map_cons, List.sum_cons]
    omega
  · simp only [deposited, List.map_cons, List.sum_cons]
    omega

theorem Kept.pay (hk : Kept p info h k templates) (ts payment : UInt64) (sameTs : Bool) :
    Kept p (info.pay ts payment sameTs).2.2
      ((.pay ts payment sameTs,
        .paid (info.pay ts payment sameTs).1 (info.pay ts payment sameTs).2.1) :: h)
      k templates := by
  unfold ClientInfo.pay
  dsimp only
  split
  · exact hk.amounts (.refl info) rfl rfl (by simp [paid, deposited]) (by simp [deposited])
  · split
    · exact hk.amounts (info.sameTemplates_pay ts _) rfl rfl (by simp [paid, deposited])
        (by simp [deposited])
    · rename_i hle
      refine hk.amounts (info.sameTemplates_pay ts _) rfl rfl ?_ (by simp [deposited])
      have hsub := UInt64.toNat_sub_of_le _ _ (UInt64.not_lt.mp hle)
      have hle := UInt64.le_iff_toNat_le.mp (UInt64.not_lt.mp hle)
      simp only [paid, deposited, List.map_cons, List.sum_cons]
      rw [hsub]
      omega

/-! ## Submitting a nonce -/

theorem Kept.refused (hk : Kept p info h k templates) (nonce cookie : UInt32) (penalty : UInt64)
    (code : Int) (message : String) :
    Kept p (info.refuse p penalty code message).2
      ((.submitNonce nonce cookie, .submitted (info.refuse p penalty code message).1) :: h)
      k templates := by
  refine hk.amounts (info.sameTemplates_credits _) rfl rfl ?_ (by simp [deposited])
  have hle := toNat_sub64clamp_le info.credits (penalty * p.creditsPerHashFound)
  simp only [ClientInfo.refuse, paid, deposited, List.map_cons, List.sum_cons]
  omega

theorem nonces_noteNonce (isCurrent : Bool) (nonce : UInt32) :
    (info.noteNonce isCurrent nonce).nonces k = (info.nonces k).note isCurrent nonce := by
  cases isCurrent <;> rfl

theorem Kept.noted (hk : Kept p info h k templates) (isCurrent : Bool) (nonce : UInt32) :
    Kept p (info.noteNonce isCurrent nonce) h k templates where
  cookie := hk.cookie
  current := hk.current
  previous := hk.previous
  first := hk.first
  blobs := hk.blobs
  handed := hk.handed
  known := hk.known
  remembers := by
    rw [nonces_noteNonce]
    exact hk.remembers.note isCurrent nonce
  met := hk.met
  ledger := hk.ledger
  latest := hk.latest

/-- **A nonce that is credited** was not seen before, and solves the template its cookie
stands for. -/
theorem Kept.credit (hk : Kept p info h k templates) {isCurrent : Bool} {nonce cookie : UInt32}
    {answer : SubmitAnswer} (hfresh : nonce ∉ (info.nonces k).seen isCurrent)
    (hgeneration : if isCurrent then cookie.toNat = k else cookie.toNat + 1 = k)
    (hlong : (info.checked isCurrent).hashingBlob ≠ [])
    (hmeets : p.Meets (info.checked isCurrent) nonce) :
    Kept p { info.noteNonce isCurrent nonce with
        credits := add64clamp info.credits p.creditsPerHashFound }
      ((.submitNonce nonce cookie, .submitted (.ok answer)) :: h) k templates := by
  have hnoted := hk.noted isCurrent nonce
  have hle : cookie.toNat ≤ k := by split at hgeneration <;> omega
  have htemplate : info.checked isCurrent = templates cookie.toNat := by
    unfold ClientInfo.checked
    cases isCurrent with
    | true =>
      rw [if_pos rfl] at hgeneration ⊢
      rw [hk.current, hgeneration]
    | false =>
      rw [if_neg Bool.false_ne_true] at hgeneration ⊢
      exact hk.previous _ hgeneration
  have hpos : 1 ≤ cookie.toNat := by
    by_contra hzero
    rw [htemplate, show cookie.toNat = 0 by omega] at hlong
    exact hlong hk.first.1
  exact
    { toTemplates := hnoted.toTemplates.same (ClientInfo.sameTemplates_credits _ _) rfl
      remembers := by
        rw [(ClientInfo.sameTemplates_credits (info.noteNonce isCurrent nonce) _).nonces,
          nonces_noteNonce]
        exact hk.remembers.admit hgeneration hfresh
      met := by
        rw [htemplate] at hmeets
        exact List.forall_mem_cons.mpr ⟨⟨hpos, hle, hmeets⟩, hk.met⟩
      ledger := by
        have hledger := hk.ledger
        have hclamp := toNat_add64clamp_le info.credits p.creditsPerHashFound
        have hlen : (credited ((.submitNonce nonce cookie, .submitted (.ok answer)) :: h)).length =
            (credited h).length + 1 := rfl
        have hpaid : paid ((.submitNonce nonce cookie, .submitted (.ok answer)) :: h) = paid h := by
          simp [paid]
        have hdeposited : deposited ((.submitNonce nonce cookie, .submitted (.ok answer)) :: h) =
            deposited h := by
          simp [deposited]
        rw [hlen, hpaid, hdeposited, Nat.mul_succ]
        dsimp only
        omega
      latest := hk.latest }

/-- The generation a cookie stands for; before the first template the one before is empty. -/
theorem Kept.generation (hk : Kept p info h k templates) {cookie : UInt32}
    (hcookie : cookie = info.cookie ∨ cookie = info.cookie - 1)
    (hlong : (info.checked (decide (cookie = info.cookie))).hashingBlob ≠ []) :
    if decide (cookie = info.cookie) = true then cookie.toNat = k else cookie.toNat + 1 = k := by
  split
  · rename_i heq
    rw [of_decide_eq_true heq]
    exact hk.cookie
  · rename_i hne
    rw [ClientInfo.checked, if_neg hne] at hlong
    have hne : ¬ cookie = info.cookie := fun h => hne (decide_eq_true h)
    have hcookie : cookie = info.cookie - 1 := hcookie.resolve_left hne
    have hpos : k ≠ 0 := fun h0 => hlong (hk.first.2 h0)
    have hsub : (info.cookie - 1).toNat = info.cookie.toNat - 1 :=
      UInt32.toNat_sub_of_le _ _ (by
        rw [UInt32.le_iff_toNat_le, hk.cookie]
        exact Nat.one_le_iff_ne_zero.mpr hpos)
    rw [hcookie, hsub, hk.cookie]
    omega

theorem Kept.submitNonce (hk : Kept p info h k templates) (nonce cookie : UInt32) (now : UInt64) :
    Kept p (info.submitNonce p nonce cookie now).2
      ((.submitNonce nonce cookie, .submitted (info.submitNonce p nonce cookie now).1) :: h)
      k templates := by
  by_cases hstale : cookie ≠ info.cookie ∧ cookie ≠ info.cookie - 1
  · rw [ClientInfo.submitNonce, if_pos hstale]
    exact hk.refused ..
  have hcookie : cookie = info.cookie ∨ cookie = info.cookie - 1 := by
    by_contra hnot
    exact hstale (not_or.mp hnot)
  have hnoted := hk.noted (decide (cookie = info.cookie)) nonce
  have hsubmit : info.submitNonce p nonce cookie now =
      if nonce ∈ (info.nonces k).seen (decide (cookie = info.cookie)) then
        info.refuse p penaltyForDuplicate (-17) "Duplicate payment"
      else
        (info.noteNonce (decide (cookie = info.cookie)) nonce).checkNonce p
          (decide (cookie = info.cookie)) nonce now :=
    if_neg hstale
  rw [hsubmit]
  by_cases hseen : nonce ∈ (info.nonces k).seen (decide (cookie = info.cookie))
  · rw [if_pos hseen]
    exact hk.refused ..
  rw [if_neg hseen]
  rcases checkNonce_cases p (info.noteNonce (decide (cookie = info.cookie)) nonce)
    (decide (cookie = info.cookie)) nonce now with
    ⟨penalty, code, message, heq⟩ | ⟨error, heq⟩ | ⟨answer, hlong, hmeets, heq⟩
  · rw [heq]
    exact hnoted.refused ..
  · rw [heq]
    exact hnoted.amounts (.refl _) rfl rfl (by simp [paid, deposited]) (by simp [deposited])
  · rw [heq]
    exact hk.credit hseen (hk.generation hcookie hlong) hlong hmeets

/-! ## Templates -/

theorem Kept.refresh (hk : Kept p info h k templates) (hbound : k + 1 < 2 ^ 32) (now : UInt64)
    (t : TemplateResult) :
    Held p (info.refresh p now t) h (k + 1)
      (Function.update templates (k + 1)
        ⟨t.1, p.getBlockHashingBlob t.1, t.2.2⟩) := by
  have hold : ∀ j, j ≤ k → Function.update templates (k + 1)
      ⟨t.1, p.getBlockHashingBlob t.1, t.2.2⟩ j = templates j :=
    fun j hj => Function.update_of_ne (by omega) ..
  exact
    { cookie := by
        show (info.cookie + 1).toNat = k + 1
        rw [UInt32.toNat_add, hk.cookie]
        exact Nat.mod_eq_of_lt hbound
      current := by
        rw [Function.update_self]
        rfl
      previous := by
        intro j hj
        obtain rfl : j = k := by omega
        rw [hold j le_rfl, ← hk.current]
        rfl
      first := by
        rw [hold 0 (Nat.zero_le k)]
        exact ⟨hk.first.1, fun h0 => absurd h0 (Nat.succ_ne_zero k)⟩
      blobs := by
        intro j h1 h2
        rcases Nat.le_succ_iff.mp h2 with hle | rfl
        · rw [hold j hle]
          exact hk.blobs j h1 hle
        · rw [Function.update_self]
      handed := by
        intro a ha
        obtain ⟨hle, hblob, hseed⟩ := hk.handed a ha
        rw [hold _ hle]
        exact ⟨Nat.le_succ_of_le hle, hblob, hseed⟩
      known := by
        intro j h1 h2
        rcases Nat.lt_succ_iff_lt_or_eq.mp h2 with hlt | rfl
        · exact hk.known j h1 hlt
        · exact hk.latest h1
      remembers := hk.remembers.roll
      met := by
        intro c hc
        obtain ⟨hpos, hle, hmeets⟩ := hk.met c hc
        rw [hold _ hle]
        exact ⟨hpos, Nat.le_succ_of_le hle, hmeets⟩
      ledger := hk.ledger }

theorem Held.handOut (hk : Held p info h k templates)
    (getBlockTemplate : List UInt8 → Option TemplateResult) (top : Hash) (now : UInt64) :
    Kept p (info.handOut p top now).2
      ((.getInfo getBlockTemplate top, .info (some (info.handOut p top now).1)) :: h)
      k templates where
  cookie := hk.cookie
  current := hk.current
  previous := hk.previous
  first := hk.first
  blobs := hk.blobs
  handed := by
    refine List.forall_mem_cons.mpr ⟨?_, hk.handed⟩
    show info.cookie.toNat ≤ k ∧ info.hashingBlob = (templates info.cookie.toNat).hashingBlob ∧
      info.seedHash = (templates info.cookie.toNat).seedHash
    rw [hk.cookie, ← hk.current]
    exact ⟨le_rfl, rfl, rfl⟩
  known j h1 h2 := by
    obtain ⟨a, ha, hcookie⟩ := hk.known j h1 h2
    exact ⟨a, List.mem_cons_of_mem _ ha, hcookie⟩
  remembers := hk.remembers
  met := hk.met
  ledger := by
    have hledger := hk.ledger
    simpa [paid, deposited, credited, ClientInfo.handOut] using hledger
  latest _ := ⟨(info.handOut p top now).1, List.mem_cons_self .., hk.cookie⟩

theorem Kept.getInfo (hk : Kept p info h k templates) (client : PublicKey)
    (getBlockTemplate : List UInt8 → Option TemplateResult) (top : Hash) (now : UInt64)
    {k' : Nat} (hk' : k' = if info.needTemplate top now &&
      (ClientInfo.newTemplate p client getBlockTemplate).isSome then k + 1 else k)
    (hbound : k' < 2 ^ 32) :
    ∃ templates', Kept p (info.getInfo p client getBlockTemplate top now).2
      ((.getInfo getBlockTemplate top,
        .info (info.getInfo p client getBlockTemplate top now).1) :: h) k' templates' := by
  unfold ClientInfo.getInfo
  cases hneed : info.needTemplate top now with
  | false =>
    rw [hneed, Bool.false_and, if_neg Bool.false_ne_true] at hk'
    rw [if_neg Bool.false_ne_true, hk']
    exact ⟨templates, hk.toHeld.handOut getBlockTemplate top now⟩
  | true =>
    rw [if_pos rfl]
    cases hnew : ClientInfo.newTemplate p client getBlockTemplate with
    | none =>
      rw [hneed, hnew] at hk'
      rw [show k' = k from hk']
      exact ⟨templates, hk.amounts (.refl info) rfl rfl (by simp [paid, deposited])
        (by simp [deposited])⟩
    | some t =>
      rw [hneed, hnew] at hk'
      obtain rfl : k' = k + 1 := hk'
      exact ⟨_, (hk.refresh hbound now t).handOut getBlockTemplate top now⟩

end Calls

/-! ## Runs -/

/-- Any calls of any clients, the history of their answers, and how often each client's
record has taken a new template. -/
inductive Run (p : Payment) : Clients → List (Request × Answer) → (PublicKey → Nat) → Prop
  | start : Run p (fun _ => none) [] fun _ => 0
  | request {clients : Clients} {h : List (Request × Answer)} {n : PublicKey → Nat} (r : Request) :
      Run p clients h n →
      Run p (clients.request p r).2 ((r, (clients.request p r).1) :: h)
        (if clients.refreshes p r then Function.update n r.client (n r.client + 1) else n)

def share (client : PublicKey) (h : List (Request × Answer)) : History :=
  (h.filter fun r => r.1.client = client).map fun r => (r.1.call, r.2)

theorem share_cons_self {h : List (Request × Answer)} :
    share r.client ((r, answer) :: h) = (r.call, answer) :: share r.client h := by
  simp [share]

theorem share_cons_of_ne {h : List (Request × Answer)} (hne : r.client ≠ client) :
    share client ((r, answer) :: h) = share client h := by
  simp [share, hne]

/-- **One call keeps what holds of a record.** -/
theorem Kept.call {h : History} {k : Nat} {templates : Nat → Template}
    (hk : Kept p (clients.infoOf r.client r.created) h k templates)
    (hbound : (if clients.refreshes p r then k + 1 else k) < 2 ^ 32) :
    ∃ templates', Kept p ((clients.infoOf r.client r.created).call p r.client r.now r.call).2
      ((r.call, ((clients.infoOf r.client r.created).call p r.client r.now r.call).1) :: h)
      (if clients.refreshes p r then k + 1 else k) templates' := by
  obtain ⟨client, created, now, call⟩ := r
  generalize hinfo : clients.infoOf client created = info at hk ⊢
  cases call with
  | getInfo getBlockTemplate top =>
    exact hk.getInfo client getBlockTemplate top now (by rw [← hinfo]; rfl) hbound
  | submitNonce nonce cookie => exact ⟨templates, hk.submitNonce nonce cookie now⟩
  | pay ts payment sameTs => exact ⟨templates, hk.pay ts payment sameTs⟩
  | balance delta => exact ⟨templates, hk.balance delta⟩

/-- **Whole runs.** Whatever all clients do, each record stays what it was made for. -/
theorem Run.kept {h : List (Request × Answer)} {n : PublicKey → Nat} (hrun : Run p clients h n)
    (client : PublicKey) (hbound : n client < 2 ^ 32) (created : UInt64) :
    ∃ templates, Kept p (clients.infoOf client created) (share client h) (n client) templates := by
  induction hrun generalizing created with
  | start => exact ⟨_, kept_created p created⟩
  | @request clients h n r hrun ih =>
    by_cases hclient : r.client = client
    · subst hclient
      have hn : (if clients.refreshes p r then Function.update n r.client (n r.client + 1)
          else n) r.client = if clients.refreshes p r then n r.client + 1 else n r.client := by
        split
        · rw [Function.update_self]
        · rfl
      rw [hn] at hbound ⊢
      obtain ⟨templates, hk⟩ := ih (lt_of_le_of_lt (by split <;> omega) hbound) r.created
      have hinfo : (clients.request p r).2.infoOf r.client created =
          ((clients.infoOf r.client r.created).call p r.client r.now r.call).2 := by
        simp [Clients.infoOf, Clients.request]
      rw [hinfo, share_cons_self]
      exact hk.call hbound
    · -- the call of another client
      have hn : (if clients.refreshes p r then Function.update n r.client (n r.client + 1)
          else n) client = n client := by
        split
        · rw [Function.update_of_ne (Ne.symm hclient)]
        · rfl
      have hinfo : (clients.request p r).2.infoOf client created =
          clients.infoOf client created := by
        simp [Clients.infoOf, Clients.request, Function.update_of_ne (Ne.symm hclient)]
      rw [hn] at hbound ⊢
      rw [hinfo, share_cons_of_ne hclient]
      exact ih hbound created

/-- **No double credit.** In any run of calls of any clients, for a client whose record has
taken fewer than `2 ^ 32` templates:

* no pair of cookie and nonce is credited twice;
* for a credited pair a hashing blob was handed out with the cookie, always the same one,
  and the nonce solves it;
* the client's credits and what it has paid do not exceed what it was credited for and what
  was deposited for it.

Every beginning of a run is a run, so this holds after each call. -/
theorem no_double_credit {clients : Clients} {h : List (Request × Answer)} {n : PublicKey → Nat}
    (hrun : Run p clients h n) (client : PublicKey) (hbound : n client < 2 ^ 32) :
    (credited (share client h)).Nodup ∧
    (∀ cookie nonce, (cookie, nonce) ∈ credited (share client h) →
      ∃ a ∈ handedOut (share client h), a.cookie = cookie ∧
        (∀ a' ∈ handedOut (share client h), a'.cookie = cookie →
          a'.hashingBlob = a.hashingBlob ∧ a'.seedHash = a.seedHash) ∧
        ∃ block, a.hashingBlob = p.getBlockHashingBlob block ∧
          checkHash (p.slowHash block a.seedHash (withNonce a.hashingBlob nonce))
            p.diff.toNat = true) ∧
    ∀ info, clients client = some info →
      info.credits.toNat + paid (share client h) ≤
        p.creditsPerHashFound.toNat * (credited (share client h)).length +
          deposited (share client h) := by
  obtain ⟨templates, hk⟩ := hrun.kept client hbound 0
  refine ⟨?_, ?_, ?_⟩
  · exact hk.remembers.nodup.of_map _
  · intro cookie nonce hmem
    obtain ⟨hpos, hle, hmeets⟩ := hk.met _ hmem
    obtain ⟨a, ha, hcookie⟩ : ∃ a ∈ handedOut (share client h), a.cookie.toNat = cookie.toNat := by
      rcases Nat.lt_or_eq_of_le hle with hlt | heq
      · exact hk.known _ hpos hlt
      · obtain ⟨a, ha, hlast⟩ := hk.latest (hpos.trans hle)
        exact ⟨a, ha, hlast.trans heq.symm⟩
    obtain ⟨-, hblob, hseed⟩ := hk.handed a ha
    rw [hcookie] at hblob hseed
    refine ⟨a, ha, UInt32.toNat_inj.mp hcookie, ?_, (templates cookie.toNat).block, ?_, ?_⟩
    · rintro a' ha' rfl
      obtain ⟨-, hblob', hseed'⟩ := hk.handed a' ha'
      exact ⟨hblob'.trans hblob.symm, hseed'.trans hseed.symm⟩
    · rw [hblob]
      exact hk.blobs _ hpos hle
    · rw [hblob, hseed]
      exact hmeets
  · intro info hinfo
    have hledger := hk.ledger
    rwa [show clients.infoOf client 0 = info by rw [Clients.infoOf, hinfo]; rfl] at hledger

/-! ## A client that mines -/

/-- A payment object at difficulty 1, with hashing blobs of zeros. -/
def easyPayment : Payment where
  diff := 1
  creditsPerHashFound := 100
  getBlockHashingBlob _ := List.replicate 76 0
  rxSlowHash _ _ := 0
  cnSlowHash _ _ _ := 0
  extraNonceOf _ := [1, 2, 3, 4]
  removeExtraNonce extra := some extra
  addExtraNonce extra nonce := some (extra ++ nonce)

/-- A template, a nonce, a payment, and the same nonce again. -/
def miningRequests : List Request :=
  [⟨1, 0, 1000, .getInfo (fun _ => some ({}, 0, nullHash)) 5⟩, ⟨1, 0, 1001, .submitNonce 7 1⟩,
    ⟨1, 0, 1002, .pay 1 30 true⟩, ⟨1, 0, 1003, .submitNonce 7 1⟩]

def runOf (p : Payment) (clients : Clients) (h : List (Request × Answer)) (n : PublicKey → Nat) :
    List Request → Clients × List (Request × Answer) × (PublicKey → Nat)
  | [] => (clients, h, n)
  | r :: rs =>
    runOf p (clients.request p r).2 ((r, (clients.request p r).1) :: h)
      (if clients.refreshes p r then Function.update n r.client (n r.client + 1) else n) rs

theorem Run.runOf {h : List (Request × Answer)} {n : PublicKey → Nat} (hrun : Run p clients h n)
    (rs : List Request) :
    Run p (Rpc.runOf p clients h n rs).1 (Rpc.runOf p clients h n rs).2.1
      (Rpc.runOf p clients h n rs).2.2 := by
  induction rs generalizing clients h n with
  | nil => exact hrun
  | cons r rs ih => exact ih (hrun.request r)

def miningRun : Clients × List (Request × Answer) × (PublicKey → Nat) :=
  runOf easyPayment (fun _ => none) [] (fun _ => 0) miningRequests

theorem no_double_credit_mining :
    miningRun.2.2 1 = 1 ∧ credited (share 1 miningRun.2.1) = [(1, 7)] ∧
      paid (share 1 miningRun.2.1) = 30 ∧ (credited (share 1 miningRun.2.1)).Nodup := by
  have hn : miningRun.2.2 1 = 1 := by decide +kernel
  have hrun : Run easyPayment miningRun.1 miningRun.2.1 miningRun.2.2 :=
    Run.start.runOf miningRequests
  refine ⟨hn, by decide +kernel, by decide +kernel, (no_double_credit hrun 1 ?_).1⟩
  rw [hn]
  decide

end Oxyra.Rpc
