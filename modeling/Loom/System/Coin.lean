import Loom.System.Traffic
import Loom.Core.Quorum

/-!
# The shares of a coin

The elector combines the first `2f+1` shares of a round and forgets them whether or not
they combine, and it refuses a second share of the same author. So the coin of a round is
revealed if these first shares are valid. One invalid share among them is enough to keep
the coin hidden for ever.
-/

namespace Loom

/-- What is assumed of `tbls.Recover` with threshold `t`: it examines the first `t` shares,
and it fails if one of them is invalid or if they are too few. -/
def Crypto.RecoversFrom (cr : Crypto) (valid : Bytes → Bytes → Bool) (signer : Bytes → Int)
    (t : Nat) : Prop :=
  ∀ shares digest, cr.recover shares digest = none ↔
    (∃ share ∈ shares.take t, valid digest share = false) ∨
      (((shares.take t).filter (valid digest)).map signer).toFinset.card < t

/-- Shares combine exactly if the first `t` are valid and have different signers. -/
theorem Crypto.RecoversFrom.exists_sig_iff {cr : Crypto} {valid : Bytes → Bytes → Bool}
    {signer : Bytes → Int} {t : Nat} (h : cr.RecoversFrom valid signer t) {shares : List Bytes}
    (digest : Bytes) (hlen : t ≤ shares.length) :
    (∃ sig, cr.recover shares digest = some sig) ↔
      (∀ share ∈ shares.take t, valid digest share = true) ∧
        ((shares.take t).map signer).Nodup := by
  rw [← Option.isSome_iff_exists, Option.isSome_iff_ne_none, Ne, h]
  have hcard : ((shares.take t).map signer).length = t := by
    rw [List.length_map, List.length_take_of_le hlen]
  push Not
  simp only [Bool.not_eq_false, ne_eq]
  refine and_congr_right fun hvalid => ?_
  rw [List.filter_eq_self.mpr hvalid]
  constructor
  · intro hle
    rw [← Multiset.coe_nodup, ← Multiset.toFinset_card_eq_card_iff_nodup, Multiset.coe_card]
    exact le_antisymm (List.toFinset_card_le _) (hcard.le.trans hle)
  · intro hnodup
    rw [List.toFinset_card_of_nodup hnodup, hcard]

/-- A message that carries the valid share of its author. -/
def Elect.IsValid (cr : Crypto) (valid : Bytes → Bytes → Bool) (signer : Bytes → Int)
    (elect : Elect) : Prop :=
  valid (electHash cr elect.round) elect.sigShare = true ∧ signer elect.sigShare = elect.author

instance (cr : Crypto) (valid : Bytes → Bytes → Bool) (signer : Bytes → Int) (elect : Elect) :
    Decidable (elect.IsValid cr valid signer) :=
  inferInstanceAs (Decidable (_ ∧ _))

/-- The messages of one round. -/
def ofRound (round : Int) (es : List Elect) : List Elect := es.filter (·.round = round)

private theorem round_of_mem {round : Int} {e : Elect} {es : List Elect}
    (h : e ∈ ofRound round es) : e.round = round := by
  simpa using (List.mem_filter.mp h).2

private theorem ofRound_cons_pos {round : Int} {e : Elect} (h : e.round = round) (es : List Elect) :
    ofRound round (e :: es) = e :: ofRound round es := by
  simp [ofRound, h]

private theorem ofRound_cons_neg {round : Int} {e : Elect} (h : e.round ≠ round) (es : List Elect) :
    ofRound round (e :: es) = ofRound round es := by
  simp [ofRound, h]

namespace Core

/-- The core handles a share and then performs the channel operation left by it. -/
def electStep (cr : Crypto) (c : Core) (elect : Elect) : Option Core :=
  some { c.handleElect cr elect with todo := [] }

/-- The leaders of a round that a handled share passes to the dag. -/
def revealed (cr : Crypto) (round : Int) (c : Core) (elect : Elect) (_ : Core) : List Int :=
  (c.handleElect cr elect).todo.filterMap fun
    | .dag (.commitReq req) => if req.round = round then some req.leader else none
    | _ => none

/-- The core waiting for its first message. -/
def ready (nodeID : Int) (c : Committee) : Core := { init nodeID c with todo := [] }

/-- The leaders of a round that are revealed while a sequence of shares is handled. -/
def reveals (cr : Crypto) (round : Int) (c : Core) (es : List Elect) : List Int :=
  Machine.outputs (electStep cr) (revealed cr round) c es

private theorem reveals_cons (cr : Crypto) (round : Int) (c : Core) (e : Elect) (es : List Elect) :
    reveals cr round c (e :: es) = revealed cr round c e { c.handleElect cr e with todo := [] } ++
      reveals cr round { c.handleElect cr e with todo := [] } es := rfl

/-- A core between two messages that has the given shares of a round, and no leader of it. -/
structure Collects (com : Committee) (round : Int) (c : Core) (ag : Aggregator Elect) : Prop where
  committee : c.eletor.committee = com
  leader : c.eletor.leader.lookup round = none
  shares : c.sharesOf round = ag
  todo : c.todo = []

variable {cr : Crypto} {com : Committee} {round : Int} {c : Core} {ag : Aggregator Elect}
  {e : Elect}

private theorem collects_ready (nodeID : Int) (com : Committee) (round : Int) :
    Collects com round (ready nodeID com) (newAggregator com) where
  committee := rfl
  leader := by simp [ready, init, newElector]
  shares := by simp [ready, init, newElector, sharesOf]
  todo := rfl

/-- A share of another round. -/
theorem Collects.other (cr : Crypto) (h : Collects com round c ag) (hne : e.round ≠ round) :
    Collects com round { c.handleElect cr e with todo := [] } ag ∧
      ∀ c', revealed cr round c e c' = [] := by
  have hshares := h.shares
  have hleader := h.leader
  unfold sharesOf at hshares
  rcases handleElect_cases cr c e with heq | ⟨leaders, leader, heq, hcase⟩
  · refine ⟨⟨?_, ?_, ?_, rfl⟩, fun c' => ?_⟩
    · rw [heq]
      exact h.committee
    · rw [heq]
      exact hleader
    · rw [heq, sharesOf, addShare, GoMap.lookup_insert_ite, if_neg (Ne.symm hne)]
      exact hshares
    · rw [revealed, heq, h.todo]
      rfl
  · refine ⟨⟨?_, ?_, ?_, rfl⟩, fun c' => ?_⟩
    · rw [heq]
      exact h.committee
    · rw [heq, GoMap.lookup_erase_ite, if_neg (Ne.symm hne)]
      rcases hcase with ⟨rfl, _⟩ | ⟨rfl, _⟩
      · exact hleader
      · rw [GoMap.lookup_insert_ite, if_neg (Ne.symm hne)]
        exact hleader
    · rw [heq, sharesOf, GoMap.lookup_erase_ite, if_neg (Ne.symm hne), addShare,
        GoMap.lookup_insert_ite, if_neg (Ne.symm hne)]
      exact hshares
    · rw [revealed, heq]
      simp [hne]

/-- A share of the round with which nothing can be combined. -/
theorem Collects.kept (cr : Crypto) (h : Collects com round c ag) (heq : e.round = round)
    (hno : ∀ msgs sig, (ag.push e.author e).take.1 = some msgs →
      cr.recover (msgs.map (·.sigShare)) (electHash cr round) ≠ some sig) :
    Collects com round { c.handleElect cr e with todo := [] } (ag.push e.author e).take.2 ∧
      ∀ c', revealed cr round c e c' = [] := by
  subst heq
  have hwith : c.sharesWith e = ag.push e.author e := by rw [sharesWith, h.shares]
  rcases handleElect_cases cr c e with hcore | ⟨leaders, leader, hcore, hcase⟩
  · refine ⟨⟨?_, ?_, ?_, rfl⟩, fun c' => ?_⟩
    · rw [hcore]
      exact h.committee
    · rw [hcore]
      exact h.leader
    · rw [hcore, sharesOf, addShare, AList.lookup_insert, hwith]
      rfl
    · rw [revealed, hcore, h.todo]
      rfl
  · rcases hcase with ⟨_, hl⟩ | ⟨_, msgs, sig, htake, hrec, _⟩
    · rw [h.leader] at hl
      cases hl
    · rw [hwith] at htake
      exact absurd hrec (hno msgs sig htake)

/-- A share of the round that completes its coin. -/
theorem Collects.combined (h : Collects com round c ag) (heq : e.round = round)
    {msgs : List Elect} {sig : Bytes} (htake : (ag.push e.author e).take.1 = some msgs)
    (hrec : cr.recover (msgs.map (·.sigShare)) (electHash cr round) = some sig) :
    Collects com round { c.handleElect cr e with todo := [] } (newAggregator com) ∧
      ∀ c', revealed cr round c e c' = [c.eletor.reveal sig] := by
  subst heq
  have hwith : c.sharesWith e = ag.push e.author e := by rw [sharesWith, h.shares]
  have hcore := handleElect_of_recover (hwith ▸ htake) hrec
  refine ⟨⟨?_, ?_, ?_, rfl⟩, fun c' => ?_⟩
  · rw [hcore]
    exact h.committee
  · rw [hcore]
    exact AList.lookup_erase _ _
  · rw [hcore, sharesOf, AList.lookup_erase, h.committee]
    rfl
  · rw [revealed, hcore]
    simp

/-- Fewer shares than the threshold reveal nothing. -/
theorem Collects.reveals_nil {es : List Elect} (h : Collects com round c ag)
    (hcom : ag.committee = com)
    (hfew : ag.item.length + (ofRound round es).length < com.hightThreshold) :
    reveals cr round c es = [] := by
  induction es generalizing c ag with
  | nil => rfl
  | cons e es ih =>
    rw [reveals_cons]
    by_cases heq : e.round = round
    · rw [ofRound_cons_pos heq, List.length_cons] at hfew
      have hpush : (ag.push e.author e).item.length ≤ ag.item.length + 1 ∧
          (ag.push e.author e).committee = com := by
        unfold Aggregator.push
        split
        · exact ⟨by omega, hcom⟩
        · exact ⟨by simp, hcom⟩
      have htake : (ag.push e.author e).take = (none, ag.push e.author e) := by
        apply Aggregator.take_of_lt
        rw [hpush.2]
        omega
      have hkept := h.kept cr heq (by simp [htake])
      rw [htake] at hkept
      rw [hkept.2, List.nil_append]
      apply ih hkept.1 hpush.2
      dsimp only
      omega
    · rw [ofRound_cons_neg heq] at hfew
      obtain ⟨hnext, hquiet⟩ := h.other cr heq
      rw [hquiet, List.nil_append]
      exact ih hnext hcom hfew

/-- The share that fills the quorum: what is combined now is all that is ever revealed, for
the shares are used up and too few are still to come. -/
theorem Collects.filled {es msgs : List Elect} {used : List Int} (h : Collects com round c ag)
    (heq : e.round = round) (hpush : ag.push e.author e = ⟨msgs, used, com⟩)
    (hfull : msgs.length = com.hightThreshold)
    (hrest : (ofRound round es).length < com.hightThreshold) :
    reveals cr round c (e :: es) = (cr.recover (msgs.map (·.sigShare))
      (electHash cr round)).toList.map (newElector com).reveal := by
  have htake : (⟨msgs, used, com⟩ : Aggregator Elect).take = (some msgs, ⟨[], used, com⟩) := by
    rw [Aggregator.take_of_le hfull.ge]
    simp [← hfull]
  rw [reveals_cons]
  cases hrec : cr.recover (msgs.map (·.sigShare)) (electHash cr round) with
  | none =>
    have hkept := h.kept cr heq (by
      rw [hpush, htake]
      rintro msgs sig ⟨⟩
      simp [hrec])
    rw [hpush, htake] at hkept
    rw [hkept.2, hkept.1.reveals_nil rfl (by simpa using hrest)]
    rfl
  | some sig =>
    have hcombined := h.combined heq (by rw [hpush, htake]) hrec
    rw [hcombined.2, hcombined.1.reveals_nil rfl (by simpa [newAggregator] using hrest),
      Elector.reveal, h.committee]
    rfl

/-- Distinct authors' shares reveal what the first `2f+1` of them combine to, and nothing
more. -/
theorem Collects.reveals_eq {es got : List Elect}
    (h : Collects com round c ⟨got, got.map (·.author), com⟩)
    (hnodup : ((got ++ ofRound round es).map (·.author)).Nodup)
    (hlt : got.length < com.hightThreshold)
    (hmany : com.hightThreshold ≤ (got ++ ofRound round es).length)
    (hfew : (got ++ ofRound round es).length < 2 * com.hightThreshold) :
    reveals cr round c es = (cr.recover
      (((got ++ ofRound round es).take com.hightThreshold).map (·.sigShare))
      (electHash cr round)).toList.map (newElector com).reveal := by
  induction es generalizing c got with
  | nil =>
    simp only [ofRound, List.filter_nil, List.append_nil] at hmany
    omega
  | cons e es ih =>
    by_cases heq : e.round = round
    · rw [ofRound_cons_pos heq] at hnodup hmany hfew ⊢
      have hsplit : got ++ e :: ofRound round es = (got ++ [e]) ++ ofRound round es := by simp
      rw [hsplit] at hnodup hmany hfew ⊢
      have hnew : e.author ∉ got.map (·.author) := by
        rw [List.map_append, List.map_append] at hnodup
        exact fun hmem => List.disjoint_of_nodup_append (List.Nodup.of_append_left hnodup) hmem
          (by simp)
      have hpush : (⟨got, got.map (·.author), com⟩ : Aggregator Elect).push e.author e =
          ⟨got ++ [e], (got ++ [e]).map (·.author), com⟩ := by
        rw [Aggregator.push, if_neg hnew]
        simp
      by_cases hlen : (got ++ [e]).length < com.hightThreshold
      · have htake : (⟨got ++ [e], (got ++ [e]).map (·.author), com⟩ : Aggregator Elect).take =
            (none, ⟨got ++ [e], (got ++ [e]).map (·.author), com⟩) := Aggregator.take_of_lt hlen
        have hkept := h.kept cr heq (by
          rw [hpush, htake]
          exact nofun)
        rw [hpush, htake] at hkept
        rw [reveals_cons, hkept.2, List.nil_append]
        exact ih hkept.1 hnodup hlen hmany hfew
      · have hfull : (got ++ [e]).length = com.hightThreshold := by
          rw [List.length_append, List.length_singleton] at hlen ⊢
          omega
        rw [List.take_left' hfull]
        apply h.filled heq hpush hfull
        rw [List.length_append] at hfew
        omega
    · rw [ofRound_cons_neg heq] at hnodup hmany hfew ⊢
      obtain ⟨hnext, hquiet⟩ := h.other cr heq
      rw [reveals_cons, hquiet, List.nil_append]
      exact ih hnext hnodup hlt hmany hfew

/-! ## Any order of arrival -/

section Order

variable {f t : Nat} {valid : Bytes → Bytes → Bool} {signer : Bytes → Int} {es : List Elect}

/-- The shares of a round: at most one from each author, at most `f` of them invalid, and
valid ones of `2f+1` members. -/
structure Delivered (cr : Crypto) (valid : Bytes → Bytes → Bool) (signer : Bytes → Int)
    (com : Committee) (f : Nat) (round : Int) (es : List Elect) : Prop where
  once : ((ofRound round es).map (·.author)).Nodup
  members : ∀ e ∈ ofRound round es, e.IsValid cr valid signer → e.author ∈ com.ids
  invalid : (ofRound round es).countP (fun e => ¬ e.IsValid cr valid signer) ≤ f
  quorum : 2 * f + 1 ≤ (ofRound round es).countP (fun e => e.IsValid cr valid signer)

/-- There are too few shares for two combinations. -/
theorem Delivered.length_lt (h : Delivered cr valid signer com f round es)
    (hn : com.size = 3 * f + 1) : (ofRound round es).length < 2 * com.hightThreshold := by
  have hsplit := List.length_eq_countP_add_countP (fun e => decide (e.IsValid cr valid signer))
    (l := ofRound round es)
  have hvalid : (ofRound round es).countP (fun e => e.IsValid cr valid signer) ≤ com.size := by
    rw [List.countP_eq_length_filter, ← List.length_map (·.author)]
    apply Committee.length_le (h.once.sublist (List.filter_sublist.map _))
    intro j hj
    obtain ⟨e, he, rfl⟩ := List.mem_map.mp hj
    obtain ⟨hmem, hval⟩ := List.mem_filter.mp he
    exact h.members e hmem (of_decide_eq_true hval)
  have hinvalid := h.invalid
  simp only [decide_not, decide_eq_true_eq] at hsplit hinvalid
  rw [Committee.hightThreshold_eq hn]
  omega

/-- What is revealed is what the first `2f+1` shares combine to. -/
theorem Delivered.reveals_eq (h : Delivered cr valid signer com f round es)
    (hn : com.size = 3 * f + 1) (nodeID : Int) :
    reveals cr round (ready nodeID com) es = (cr.recover
      (((ofRound round es).take (2 * f + 1)).map (·.sigShare))
      (electHash cr round)).toList.map (newElector com).reveal := by
  have hlt := h.length_lt hn
  have hquorum := h.quorum.trans List.countP_le_length
  rw [← Committee.hightThreshold_eq hn] at hquorum ⊢
  have hpos : 0 < com.hightThreshold := by
    rw [Committee.hightThreshold_eq hn]
    omega
  have hready : Collects com round (ready nodeID com) ⟨[], ([] : List Elect).map (·.author), com⟩ :=
    collects_ready nodeID com round
  exact hready.reveals_eq h.once hpos hquorum hlt

/-- The leader is revealed exactly if the first `t` shares combine. -/
theorem Delivered.revealed_iff (h : Delivered cr valid signer com f round es)
    (hn : com.size = 3 * f + 1) (hrec : cr.RecoversFrom valid signer t) (ht : t ≤ 2 * f + 1)
    (nodeID : Int) :
    (∃ leader, reveals cr round (ready nodeID com) es = [leader]) ↔
      (∀ e ∈ (ofRound round es).take t, valid (electHash cr round) e.sigShare = true) ∧
        (((ofRound round es).take t).map fun e => signer e.sigShare).Nodup := by
  have htake : (((ofRound round es).take (2 * f + 1)).map (·.sigShare)).take t =
      ((ofRound round es).take t).map (·.sigShare) := by
    rw [← List.map_take, List.take_take, Nat.min_eq_left ht]
  have hlen : t ≤ (((ofRound round es).take (2 * f + 1)).map (·.sigShare)).length := by
    rw [List.length_map, List.length_take_of_le (h.quorum.trans List.countP_le_length)]
    exact ht
  have hsig := hrec.exists_sig_iff (electHash cr round) hlen
  rw [htake, List.forall_mem_map, List.map_map] at hsig
  refine Iff.trans ?_ hsig
  rw [h.reveals_eq hn]
  cases cr.recover (((ofRound round es).take (2 * f + 1)).map (·.sigShare))
    (electHash cr round) <;> simp

/-- **Good shares first reveal the coin, and nothing else does.** However the shares of a round
arrive, and whatever arrives for other rounds in between: once valid shares of `2f+1` members
are there, the leader of the round has been revealed, and only once, exactly if the first `t`
shares of the round that were delivered are valid and have different signers. In particular it
has been revealed if they are the valid shares of their authors. -/
theorem leader_revealed (hn : com.size = 3 * f + 1) (hrec : cr.RecoversFrom valid signer t)
    (ht : t ≤ 2 * f + 1) (h : Delivered cr valid signer com f round es) (nodeID : Int) :
    ((∃ leader, reveals cr round (ready nodeID com) es = [leader]) ↔
      (∀ e ∈ (ofRound round es).take t, valid (electHash cr round) e.sigShare = true) ∧
        (((ofRound round es).take t).map fun e => signer e.sigShare).Nodup) ∧
    ((∀ e ∈ (ofRound round es).take t, e.IsValid cr valid signer) →
      ∃ leader, reveals cr round (ready nodeID com) es = [leader]) := by
  have hiff := h.revealed_iff hn hrec ht nodeID
  refine ⟨hiff, fun hfirst => hiff.mpr ⟨fun e he => ?_, ?_⟩⟩
  · rw [← round_of_mem (List.mem_of_mem_take he)]
    exact (hfirst e he).1
  · rw [List.map_congr_left fun e he => (hfirst e he).2]
    exact h.once.sublist ((List.take_sublist _ _).map _)

end Order

/-- A share `[i]` is valid, and member `i` has signed it. -/
def oneByte (_ share : Bytes) : Bool := share.length == 1

def signerByte (share : Bytes) : Int := (share.headD 0).toNat

/-- A coin that three shares of different members combine to. -/
def threeShares : Crypto where
  sha256 m := m
  sign _ _ := []
  edVerify _ _ _ := true
  tsSign i _ := some [UInt8.ofNat i.toNat]
  recover shares digest :=
    if (∃ share ∈ shares.take 3, oneByte digest share = false) ∨
        (((shares.take 3).filter (oneByte digest)).map signerByte).toFinset.card < 3 then none
    else some [0, 0, 0, 2]

/-- This scheme recovers from the first three shares. -/
theorem threeShares_recoversFrom : threeShares.RecoversFrom oneByte signerByte 3 := by
  intro shares digest
  simp only [threeShares]
  split
  · exact iff_of_true rfl ‹_›
  · exact iff_of_false nofun ‹_›

open Pair (fourMembers)

/-- The valid share of a member for the coin of a round. -/
def goodShare (i round : Int) : Elect := ⟨i, round, [UInt8.ofNat i.toNat]⟩

/-- The message of a faulty member. -/
def badShare (i round : Int) : Elect := ⟨i, round, []⟩

/-- The bad share of member `3` comes after three valid ones, between shares of round `2`. -/
def badLast : List Elect :=
  [goodShare 1 0, badShare 3 2, goodShare 0 0, goodShare 1 2, goodShare 2 0, badShare 3 0]

/-- A bad share that comes last does not matter. -/
theorem leader_revealed_badLast :
    Delivered threeShares oneByte signerByte fourMembers 1 0 badLast ∧
    ∃ leader, reveals threeShares 0 (ready 0 fourMembers) badLast = [leader] := by
  have hdelivered : Delivered threeShares oneByte signerByte fourMembers 1 0 badLast :=
    ⟨by decide, by decide, by decide, by decide⟩
  exact ⟨hdelivered, (leader_revealed (by decide) threeShares_recoversFrom (by decide) hdelivered
    0).2 (by decide)⟩

/-- The bad share of member `3` comes first. -/
def badFirst : List Elect := [badShare 3 0, goodShare 0 0, goodShare 1 0, goodShare 2 0]

/-- One bad share that comes first: the first three shares do not combine and are gone, so
the valid shares of three members have arrived in the end and no leader is revealed. -/
theorem badFirst_hides_leader :
    threeShares.RecoversFrom oneByte signerByte 3 ∧
    fourMembers.hightThreshold = 3 ∧
    Delivered threeShares oneByte signerByte fourMembers 1 0 badFirst ∧
    reveals threeShares 0 (ready 0 fourMembers) badFirst = [] := by
  refine ⟨threeShares_recoversFrom, by decide, ?_, by decide⟩
  exact ⟨by decide, by decide, by decide, by decide⟩

end Core

end Loom
