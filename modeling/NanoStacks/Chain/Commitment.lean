import NanoStacks.Chain.Plain
import NanoStacks.Lib.Texts
import NanoStacks.Lib.Strings

/-!
# What the commitment over the receipts binds

Two blocks' executions with one commitment have the same preimage, up to a collision of the digest.
Whether they have the same receipts is a question of where that preimage is cut. Identifiers have one
width and no status begins another, but a cost is five decimal numbers written after one another and
after a value that may be absent.

* `commitment_binds`: with equal commitments, the reports are the same exactly when they are cut at
  the same places; for the serializations of Clarity, which are told from what follows them, exactly
  when the same receipts carry a value and each cost has as many digits.
* `costs_trade_digits`: two executions with different costs and one commitment.
-/

namespace NanoStacks.Chain

open Bitcoin Sortition Result Texts List ExecutionCost

/-! ## Identifiers, statuses and numbers as text -/

variable {n : Nat}

theorem toList_hex (b : Bytes n) :
    b.hex.toList = b.toList.flatMap fun byte =>
      [Nat.digitChar (byte.toNat / 16), Nat.digitChar (byte.toNat % 16)] := by
  simp [Bytes.hex]

theorem ascii_hex (b : Bytes n) : ascii b.hex = b.toList.flatMap hexPair := by
  rw [ascii, toList_hex, map_flatMap]
  rfl

variable {x y : List UInt8}

theorem ascii_hex_append {a b : Bytes n} (h : ascii a.hex ++ x = ascii b.hex ++ y) : a = b ∧ x = y := by
  have hreads : Reads (fun _ _ : UInt8 => True) (fun byte text => hexPair byte = text)
      (fun a b => a = b) :=
    Reads.ofWidth (fun a b s t _ hs ht => by rw [← hs, ← ht]; rfl)
      fun a b s hs ht => hexPair_inj (hs.trans ht.symm)
  have htexts : ∀ l : List UInt8,
      List.Forall₂ (fun byte text => hexPair byte = text) l (l.map hexPair) := fun l => by
    simp [forall₂_map_right_iff, forall₂_same]
  have hlength : List.Forall₂ (fun _ _ : UInt8 => True) a.toList b.toList := by
    apply forall₂_iff_get.2
    exact ⟨by simp, fun _ _ _ => trivial⟩
  rw [ascii_hex, ascii_hex, flatMap_def, flatMap_def] at h
  obtain ⟨hbytes, hrest⟩ := hreads.flatten hlength (htexts _) (htexts _) h
  exact ⟨Bytes.ext (forall₂_eq_eq_eq ▸ hbytes), hrest⟩

theorem receiptStatus_append {a b : TransactionStatus}
    (h : ascii (receiptStatus a) ++ x = ascii (receiptStatus b) ++ y) :
    receiptStatus a = receiptStatus b ∧ x = y := by
  cases a <;> cases b <;> simp_all [receiptStatus, ascii]

/-- The number of decimal digits of a number. -/
def digits (n : Nat) : Nat := (Nat.toDigits 10 n).length

@[simp] theorem length_decimal (n : Nat) : (decimal n).length = digits n := by
  simp [decimal, digits]

theorem decimal_inj {m : Nat} (h : decimal n = decimal m) : n = m := by
  have hdigit : ∀ c : Char, c.isDigit = true → (UInt8.ofNat c.toNat).toNat = c.toNat := by
    intro c hc
    have hle : c.toNat ≤ 57 := by
      simp only [Char.isDigit, Bool.and_eq_true, decide_eq_true_eq] at hc
      exact hc.2
    rw [UInt8.toNat_ofNat']
    omega
  have hback : ∀ k, (decimal k).map (fun byte => Char.ofNat byte.toNat) = Nat.toDigits 10 k := by
    intro k
    rw [decimal, map_map]
    conv_rhs => rw [← map_id (Nat.toDigits 10 k)]
    apply map_congr_left
    intro c hc
    have hc : c.isDigit = true := Nat.isDigit_of_mem_toDigits (by omega) (by omega) hc
    simp [hdigit c hc]
  have hchars : Nat.toDigits 10 n = Nat.toDigits 10 m := by rw [← hback, ← hback, h]
  rw [← Nat.ofDigitChars_toDigits (b := 10) (n := n) (by omega) (by omega), hchars,
    Nat.ofDigitChars_toDigits (by omega) (by omega)]

theorem decimal_append {m : Nat} (hdigits : digits n = digits m)
    (h : decimal n ++ x = decimal m ++ y) : n = m ∧ x = y := by
  obtain ⟨heq, hrest⟩ := append_inj h (by simpa using hdigits)
  exact ⟨decimal_inj heq, hrest⟩

/-! ## Receipts and events as text -/

section Engine

variable (E : Clarity)

/-- The numbers of a cost, in the order they are written. -/
def ExecutionCost.dimensions (cost : ExecutionCost) : List Nat :=
  [cost.runtime, cost.readCount, cost.readLength, cost.writeCount, cost.writeLength]

variable {cost cost' : ExecutionCost}

theorem ExecutionCost.dimensions_inj (h : cost.dimensions = cost'.dimensions) : cost = cost' := by
  cases cost
  cases cost'
  simp_all [dimensions]

/-- What a receipt reports of its transaction, its events apart. -/
structure ReportedTransaction (Value : Type) where
  txid : Txid
  status : String
  value : Option Value
  cost : ExecutionCost

def reported (receipt : E.Receipt) : ReportedTransaction E.Value :=
  ⟨receipt.txid, receiptStatus receipt.status, receipt.result.value, receipt.result.cost⟩

/-- Two executions report the same transactions and the same events, in the same order. -/
structure SameReport (receipts receipts' : List E.Receipt) : Prop where
  transactions : receipts.map (reported E) = receipts'.map (reported E)
  events : reportedEvents E receipts = reportedEvents E receipts'

/-- Two receipts both carry a value or both carry none, and their costs have as many digits. -/
structure SameShape (receipt receipt' : E.Receipt) : Prop where
  value : receipt.result.value.isSome = receipt'.result.value.isSome
  digits : receipt.result.cost.dimensions.map digits = receipt'.result.cost.dimensions.map digits

/-- The serializations of values and of events are told from what follows them: a value's by its type
tag and its lengths, an event's because it is a document in braces, with no brace in the members
written before it. -/
structure SelfDelimiting : Prop where
  value : ∀ ⦃value value' text text' x y⦄, E.serializeToHex value = .ok text →
    E.serializeToHex value' = .ok text' → ascii text ++ x = ascii text' ++ y → value = value'
  braced : ∀ ⦃event index txid committed json⦄,
    E.jsonSerialize event index txid committed = .ok json →
      (∀ text ∈ json.txid, 0x7b ∉ ascii text) ∧ (∀ text ∈ json.type, 0x7b ∉ ascii text) ∧
        0x7b ∉ ascii json.committed ∧ json.document.head? = some 0x7b
  document : ∀ ⦃event index txid committed json event' index' txid' committed' json' x y⦄,
    E.jsonSerialize event index txid committed = .ok json →
    E.jsonSerialize event' index' txid' committed' = .ok json' →
    json.document ++ x = json'.document ++ y →
      (event, txid, committed) = (event', txid', committed') ∧ x = y

variable {text : List UInt8}

theorem receiptPreimage_eq_ok {receipt : E.Receipt} (h : receiptPreimage E receipt = .ok text) :
    ∃ value, valueText E receipt.result.value = .ok value ∧
      text = ascii receipt.txid.hex ++ (ascii (receiptStatus receipt.status) ++ (value ++
        (receipt.result.cost.dimensions.map decimal).flatten)) := by
  simp only [receiptPreimage, bind_eq_ok, return_eq_ok] at h
  obtain ⟨value, hvalue, rfl⟩ := h
  refine ⟨value, hvalue, ?_⟩
  simp [dimensions]

theorem eventPreimage_eq_ok {event : EventJson} (h : eventPreimage event = .ok text) :
    ∃ txid type, event.txid = some txid ∧ event.type = some type ∧
      text = ascii (String.ofList (trimHexMark txid.toList)) ++
        ascii (String.ofList (trimHexMark type.toList)) ++ ascii event.committed ++
        event.document := by
  simp only [eventPreimage, jsonString, bind_eq_ok, okOr_eq_ok, return_eq_ok] at h
  obtain ⟨_, ⟨txid, htxid, rfl⟩, _, ⟨type, htype, rfl⟩, rfl⟩ := h
  exact ⟨txid, type, htxid, htype, rfl⟩

/-! ## Reading the preimage back -/

theorem dimensions_append {x y : List UInt8}
    (hdigits : cost.dimensions.map digits = cost'.dimensions.map digits)
    (h : (cost.dimensions.map decimal).flatten ++ x = (cost'.dimensions.map decimal).flatten ++ y) :
    cost = cost' ∧ x = y := by
  have hreads : Reads (fun n m => digits n = digits m) (fun n text => decimal n = text)
      (fun n m => n = m) := by
    intro n m s t x y hdigits hs ht h
    rw [← hs, ← ht] at h
    exact decimal_append hdigits h
  have htexts : ∀ l : List Nat,
      List.Forall₂ (fun n text => decimal n = text) l (l.map decimal) := fun l => by
    simp [forall₂_map_right_iff, forall₂_same]
  have hwidths : List.Forall₂ (fun n m => digits n = digits m) cost.dimensions
      cost'.dimensions := by
    simpa [dimensions] using hdigits
  obtain ⟨hcosts, hrest⟩ := hreads.flatten hwidths (htexts _) (htexts _) h
  exact ⟨dimensions_inj (forall₂_eq_eq_eq ▸ hcosts), hrest⟩

variable {E}

theorem SelfDelimiting.valueText_append (hser : SelfDelimiting E) {value value' : Option E.Value}
    {text' x y : List UInt8} (hsome : value.isSome = value'.isSome)
    (htext : valueText E value = .ok text) (htext' : valueText E value' = .ok text')
    (h : text ++ x = text' ++ y) : value = value' ∧ x = y := by
  cases value with
  | none =>
    obtain rfl : value' = none := by simpa using hsome.symm
    obtain rfl : text = text' := Except.ok.inj (htext.symm.trans htext')
    exact ⟨rfl, append_cancel_left h⟩
  | some found =>
    obtain ⟨found', rfl⟩ := Option.isSome_iff_exists.1 hsome.symm
    simp only [valueText, map_eq_ok] at htext htext'
    obtain ⟨hex, hhex, rfl⟩ := htext
    obtain ⟨hex', hhex', rfl⟩ := htext'
    obtain rfl : found = found' := hser.value hhex hhex' h
    obtain rfl : hex = hex' := Except.ok.inj (hhex.symm.trans hhex')
    exact ⟨rfl, append_cancel_left h⟩

theorem SelfDelimiting.receipts_read (hser : SelfDelimiting E) :
    Reads (SameShape E) (fun receipt text => receiptPreimage E receipt = .ok text)
      (fun receipt receipt' => reported E receipt = reported E receipt') := by
  intro receipt receipt' text text' x y hshape htext htext' h
  obtain ⟨value, hvalue, rfl⟩ := receiptPreimage_eq_ok E htext
  obtain ⟨value', hvalue', rfl⟩ := receiptPreimage_eq_ok E htext'
  simp only [append_assoc] at h
  obtain ⟨htxid, h⟩ := ascii_hex_append h
  obtain ⟨hstatus, h⟩ := receiptStatus_append h
  obtain ⟨hvalues, h⟩ := hser.valueText_append hshape.value hvalue hvalue' h
  obtain ⟨hcost, hrest⟩ := dimensions_append hshape.digits h
  refine ⟨?_, hrest⟩
  simp only [reported, htxid, hstatus, hvalues, hcost]

/-- The text of one event of a block, at its index. -/
def EventText (E : Clarity) (entry : (E.Event × Txid × Bool) × Nat) (text : List UInt8) : Prop :=
  ∃ json, E.jsonSerialize entry.1.1 entry.2 entry.1.2.1 entry.1.2.2 = .ok json ∧
    eventPreimage json = .ok text

theorem trimHexMark_subset (text : List Char) : trimHexMark text ⊆ text := by
  fun_induction trimHexMark text with
  | case1 rest ih =>
    exact fun c hc => mem_cons_of_mem _ (mem_cons_of_mem _ (ih hc))
  | case2 text => exact fun c hc => hc

theorem not_mem_ascii_trimHexMark {text : String} {byte : UInt8} (h : byte ∉ ascii text) :
    byte ∉ ascii (String.ofList (trimHexMark text.toList)) := by
  simp only [ascii, mem_map, String.toList_ofList] at h ⊢
  rintro ⟨c, hc, hbyte⟩
  exact h ⟨c, trimHexMark_subset _ hc, hbyte⟩

/-- What is written before an event's document has no brace in it, and the document starts with
one. -/
theorem SelfDelimiting.eventText_eq (hser : SelfDelimiting E)
    {entry : (E.Event × Txid × Bool) × Nat} (h : EventText E entry text) :
    ∃ json front rest, E.jsonSerialize entry.1.1 entry.2 entry.1.2.1 entry.1.2.2 = .ok json ∧
      0x7b ∉ front ∧ json.document = 0x7b :: rest ∧ text = front ++ json.document := by
  obtain ⟨json, hjson, htext⟩ := h
  obtain ⟨txid, type, htxid, htype, rfl⟩ := eventPreimage_eq_ok htext
  obtain ⟨hno, hno', hcommitted, hhead⟩ := hser.braced hjson
  obtain ⟨rest, hrest⟩ := head?_eq_some_iff.1 hhead
  refine ⟨json, _, rest, hjson, ?_, hrest, rfl⟩
  simp only [mem_append, not_or]
  exact ⟨⟨not_mem_ascii_trimHexMark (hno txid htxid), not_mem_ascii_trimHexMark (hno' type htype)⟩,
    hcommitted⟩

theorem SelfDelimiting.events_read (hser : SelfDelimiting E) :
    Reads (fun _ _ => True) (EventText E) (fun entry entry' => entry.1 = entry'.1) := by
  intro entry entry' text text' x y _ htext htext' h
  obtain ⟨json, front, rest, hjson, hfront, hdocument, rfl⟩ := hser.eventText_eq htext
  obtain ⟨json', front', rest', hjson', hfront', hdocument', rfl⟩ := hser.eventText_eq htext'
  simp only [append_assoc, hdocument, hdocument', cons_append] at h
  obtain ⟨-, h⟩ := append_cons_inj hfront hfront' h
  refine hser.document hjson hjson' ?_
  rw [hdocument, hdocument', cons_append, cons_append, h]

variable {receipts : List E.Receipt}

theorem commitmentPreimage_eq_ok {preimage : List UInt8} {count : Nat}
    (h : commitmentPreimage E receipts = .ok (preimage, count)) :
    ∃ texts events, List.Forall₂ (fun receipt text => receiptPreimage E receipt = .ok text)
        receipts texts ∧
      List.Forall₂ (EventText E) (reportedEvents E receipts).zipIdx events ∧
      preimage = texts.flatten ++ events.flatten ∧
      count = (reportedEvents E receipts).length := by
  simp only [commitmentPreimage, serializedEvents, bind_eq_ok, return_eq_ok, Prod.mk.injEq] at h
  obtain ⟨texts, htexts, jsons, hjsons, events, hevents, rfl, rfl⟩ := h
  have hserialized := forall₂_of_mapM_ok hjsons
  have hwritten := forall₂_of_mapM_ok hevents
  refine ⟨texts, events, forall₂_of_mapM_ok htexts, ?_, rfl, ?_⟩
  · exact forall₂_comp hserialized hwritten
  · rw [← hserialized.length_eq, length_zipIdx]

variable {receipts' : List E.Receipt}

theorem SameReport.shapes (h : SameReport E receipts receipts') :
    List.Forall₂ (SameShape E) receipts receipts' := by
  have hreported : List.Forall₂ (fun receipt receipt' => reported E receipt = reported E receipt')
      receipts receipts' := by
    have heq := h.transactions
    rw [← forall₂_eq_eq_eq, forall₂_map_left_iff, forall₂_map_right_iff] at heq
    exact heq
  refine hreported.imp ?_
  intro receipt receipt' hsame
  simp only [reported, ReportedTransaction.mk.injEq] at hsame
  obtain ⟨-, -, hvalue, hcost⟩ := hsame
  exact ⟨by rw [hvalue], by rw [hcost]⟩

theorem SelfDelimiting.sameReport (hser : SelfDelimiting E) {preimage : List UInt8} {count : Nat}
    (h : commitmentPreimage E receipts = .ok (preimage, count))
    (h' : commitmentPreimage E receipts' = .ok (preimage, count))
    (hshape : List.Forall₂ (SameShape E) receipts receipts') : SameReport E receipts receipts' := by
  obtain ⟨texts, events, htexts, hevents, hpreimage, hcount⟩ := commitmentPreimage_eq_ok h
  obtain ⟨texts', events', htexts', hevents', hpreimage', hcount'⟩ := commitmentPreimage_eq_ok h'
  have heq : texts.flatten ++ events.flatten = texts'.flatten ++ events'.flatten :=
    hpreimage.symm.trans hpreimage'
  obtain ⟨hreported, heq⟩ := hser.receipts_read.flatten hshape htexts htexts' heq
  have hmany : List.Forall₂ (fun _ _ => True) (reportedEvents E receipts).zipIdx
      (reportedEvents E receipts').zipIdx := by
    apply forall₂_iff_get.2
    refine ⟨?_, fun _ _ _ => trivial⟩
    rw [length_zipIdx, length_zipIdx, ← hcount, ← hcount']
  obtain ⟨hentries, -⟩ := hser.events_read.flatten hmany hevents hevents'
    (show events.flatten ++ [] = events'.flatten ++ [] by rw [heq])
  constructor
  · rw [← forall₂_eq_eq_eq, forall₂_map_left_iff, forall₂_map_right_iff]
    exact hreported
  · have hmap : (reportedEvents E receipts).zipIdx.map Prod.fst =
        (reportedEvents E receipts').zipIdx.map Prod.fst := by
      rw [← forall₂_eq_eq_eq, forall₂_map_left_iff, forall₂_map_right_iff]
      exact hentries
    simpa using hmap

end Engine

theorem receiptCommitmentParts_eq_ok {H : Hashes} {E : Clarity} {block : NakamotoBlock}
    {receipts : List E.Receipt} {observed : List (ObservedTransaction E.Value E.Assets E.Event)}
    {commitment : ReceiptCommitment}
    (h : receiptCommitmentParts H E block receipts observed = .ok commitment) :
    ∃ preimage, commitmentPreimage E (receipts ++ observed.map (·.receipt)) =
        .ok (preimage, commitment.events) ∧
      commitment.digest = (H.sha512_256 preimage).hex := by
  simp only [receiptCommitmentParts, bind_eq_ok, return_eq_ok] at h
  obtain ⟨⟨preimage, events⟩, hpreimage, rfl⟩ := h
  exact ⟨preimage, hpreimage, rfl⟩

/-- Two executions under one commitment report the same transactions, statuses, values, costs and
events exactly when the same receipts carry a value and each cost has as many digits. -/
theorem commitment_binds {H : Hashes} {E : Clarity} (hser : SelfDelimiting E)
    {block block' : NakamotoBlock} {receipts receipts' : List E.Receipt}
    {observed observed' : List (ObservedTransaction E.Value E.Assets E.Event)}
    {commitment : ReceiptCommitment} (hcollision : ∀ preimage count preimage' count',
      commitmentPreimage E (receipts ++ observed.map (·.receipt)) = .ok (preimage, count) →
      commitmentPreimage E (receipts' ++ observed'.map (·.receipt)) = .ok (preimage', count') →
      H.sha512_256 preimage = H.sha512_256 preimage' → preimage = preimage')
    (h : receiptCommitmentParts H E block receipts observed = .ok commitment)
    (h' : receiptCommitmentParts H E block' receipts' observed' = .ok commitment) :
    SameReport E (receipts ++ observed.map (·.receipt)) (receipts' ++ observed'.map (·.receipt)) ↔
      List.Forall₂ (SameShape E) (receipts ++ observed.map (·.receipt))
        (receipts' ++ observed'.map (·.receipt)) := by
  obtain ⟨preimage, hpreimage, hdigest⟩ := receiptCommitmentParts_eq_ok h
  obtain ⟨preimage', hpreimage', hdigest'⟩ := receiptCommitmentParts_eq_ok h'
  have hhash : H.sha512_256 preimage = H.sha512_256 preimage' := by
    have hhex : ascii (H.sha512_256 preimage).hex ++ [] = ascii (H.sha512_256 preimage').hex ++ [] := by
      rw [← hdigest, ← hdigest']
    exact (ascii_hex_append hhex).1
  obtain rfl : preimage = preimage' := hcollision _ _ _ _ hpreimage hpreimage' hhash
  exact ⟨SameReport.shapes, hser.sameReport hpreimage hpreimage'⟩

/-! ## Two executions with one commitment -/

/-- The plain engine with one value and one event, written as Clarity and its events write theirs. -/
def reportingClarity : Clarity :=
  { plainClarity with
    serializeToHex := fun _ => .ok "03"
    jsonSerialize := fun _ _ txid committed =>
      .ok ⟨some ("0x" ++ txid.hex), some "stx_transfer_event", toString committed,
        [0x7b] ++ ascii txid.hex ++ [if committed then 1 else 0, 0x7d]⟩ }

theorem brace_not_mem_hex (b : Bytes n) : 0x7b ∉ ascii b.hex := by
  have hdigit : ∀ k < 16, UInt8.ofNat (Nat.digitChar k).toNat ≠ 0x7b := by decide
  rw [ascii_hex]
  intro hmem
  obtain ⟨byte, -, hbyte⟩ := mem_flatMap.1 hmem
  have hlt : byte.toNat < 256 := byte.toNat_lt
  simp only [hexPair, mem_cons, not_mem_nil, or_false] at hbyte
  rcases hbyte with h | h
  · exact hdigit _ (by omega) h.symm
  · exact hdigit _ (by omega) h.symm

theorem reportingClarity_selfDelimiting : SelfDelimiting reportingClarity where
  value := fun _ _ _ _ _ _ _ _ _ => rfl
  braced := by
    intro event index txid committed json hjson
    obtain rfl := Except.ok.inj hjson
    have hmark : ascii ("0x" ++ txid.hex) = [0x30, 0x78] ++ ascii txid.hex := by
      simp [ascii]
    refine ⟨?_, ?_, ?_, rfl⟩
    · rintro text ⟨⟩
      rw [hmark]
      simpa using brace_not_mem_hex txid
    · rintro text ⟨⟩
      decide
    · change 0x7b ∉ ascii (toString committed)
      cases committed <;> decide
  document := by
    intro event index txid committed json event' index' txid' committed' json' x y hjson hjson' h
    obtain rfl := Except.ok.inj hjson
    obtain rfl := Except.ok.inj hjson'
    simp only [cons_append, nil_append, append_assoc, cons.injEq, true_and] at h
    obtain ⟨rfl, hafter⟩ := ascii_hex_append h
    obtain ⟨hflag, hrest⟩ := cons.inj hafter
    have hcommitted : committed = committed' := by
      revert hflag
      cases committed <;> cases committed' <;> decide
    exact ⟨congrArg (fun flag => (event, txid, flag)) hcommitted, (cons.inj hrest).2⟩

/-- A transfer's receipt with a status and a cost, a value and an event. -/
def reportedTransfer (status : TransactionStatus) (runtime readCount : Nat) :
    reportingClarity.Receipt :=
  ⟨Bytes.replicate 32 7, status, true,
    ⟨some (), { zero with runtime, readCount }, (), [()]⟩⟩

def reportingBlock : NakamotoBlock := plainBlock (Bytes.zero 32) 10 1 0 []

theorem exists_commitment {receipts receipts' : List reportingClarity.Receipt}
    (h : commitmentPreimage reportingClarity receipts =
      commitmentPreimage reportingClarity receipts') (hlength : receipts.length = receipts'.length)
    (hok : (commitmentPreimage reportingClarity receipts).toOption.isSome = true) :
    ∃ commitment, receiptCommitmentParts plainCrypto reportingClarity reportingBlock
        receipts [] = .ok commitment ∧
      receiptCommitmentParts plainCrypto reportingClarity reportingBlock receipts' [] =
        .ok commitment := by
  obtain ⟨⟨preimage, count⟩, hsome⟩ := Option.isSome_iff_exists.1 hok
  have hpreimage := toOption_eq_some.1 hsome
  have hpreimage' := h.symm.trans hpreimage
  simp [receiptCommitmentParts, hpreimage, hpreimage', hlength]

/-- A failure and an abort at one cost are reported alike. -/
theorem commitment_binds_aborts :
    SameReport reportingClarity [reportedTransfer .abortedByResponse 12 3]
      [reportedTransfer (.runtimeFailure "overflow") 12 3] := by
  have hsame : commitmentPreimage reportingClarity [reportedTransfer .abortedByResponse 12 3] =
      commitmentPreimage reportingClarity [reportedTransfer (.runtimeFailure "overflow") 12 3] :=
    rfl
  obtain ⟨commitment, h, h'⟩ := exists_commitment hsame rfl (by decide +kernel)
  refine (commitment_binds reportingClarity_selfDelimiting ?_ h h').2 (.cons ⟨rfl, rfl⟩ .nil)
  intro preimage count preimage' count' hpreimage hpreimage' _
  exact (Prod.mk.inj (Except.ok.inj (hpreimage.symm.trans (hsame.trans hpreimage')))).1

/-- A runtime of 1 with 11 reads and a runtime of 11 with 1 read are written alike. -/
theorem costs_trade_digits :
    (∃ commitment, receiptCommitmentParts plainCrypto reportingClarity reportingBlock
        [reportedTransfer .success 1 11] [] = .ok commitment ∧
      receiptCommitmentParts plainCrypto reportingClarity reportingBlock
        [reportedTransfer .success 11 1] [] = .ok commitment) ∧
      SelfDelimiting reportingClarity ∧
      ¬SameReport reportingClarity [reportedTransfer .success 1 11]
        [reportedTransfer .success 11 1] := by
  refine ⟨exists_commitment (by decide +kernel) rfl (by decide +kernel),
    reportingClarity_selfDelimiting, fun hsame => ?_⟩
  have hcost := congrArg (map fun transaction => transaction.cost.runtime) hsame.transactions
  simp [reported, reportedTransfer] at hcost

end NanoStacks.Chain
