import Custodian.Lib.Split

/-!
# Resource names

`generate_arn` of `c7n/utils.py` writes the name of a resource, `Arn.parse` of
`c7n/resources/aws.py` takes one apart.  The writer is told the separator between
the type and the resource; the reader guesses it from the characters that occur.
-/

namespace Custodian.Aws

open Py

/-! ## Writing -/

/-- `aws_region_partition_map.json` -/
def regionPartitionMap : List (String × String) :=
  [("af-south-1", "aws"), ("ap-east-1", "aws"), ("ap-east-2", "aws"), ("ap-northeast-1", "aws"),
   ("ap-northeast-2", "aws"), ("ap-northeast-3", "aws"), ("ap-south-1", "aws"),
   ("ap-south-2", "aws"), ("ap-southeast-1", "aws"), ("ap-southeast-2", "aws"),
   ("ap-southeast-3", "aws"), ("ap-southeast-4", "aws"), ("ap-southeast-5", "aws"),
   ("ap-southeast-6", "aws"), ("ap-southeast-7", "aws"), ("ca-central-1", "aws"),
   ("ca-west-1", "aws"), ("cn-north-1", "aws-cn"), ("cn-northwest-1", "aws-cn"),
   ("eu-central-1", "aws"), ("eu-central-2", "aws"), ("eu-isoe-west-1", "aws-iso-e"),
   ("eu-north-1", "aws"), ("eu-south-1", "aws"), ("eu-south-2", "aws"), ("eu-west-1", "aws"),
   ("eu-west-2", "aws"), ("eu-west-3", "aws"), ("eusc-de-east-1", "aws-eusc"),
   ("il-central-1", "aws"), ("me-central-1", "aws"), ("me-south-1", "aws"),
   ("mx-central-1", "aws"), ("sa-east-1", "aws"), ("us-east-1", "aws"), ("us-east-2", "aws"),
   ("us-gov-east-1", "aws-us-gov"), ("us-gov-west-1", "aws-us-gov"), ("us-iso-east-1", "aws-iso"),
   ("us-iso-west-1", "aws-iso"), ("us-isob-east-1", "aws-iso-b"), ("us-isob-west-1", "aws-iso-b"),
   ("us-isof-east-1", "aws-iso-f"), ("us-isof-south-1", "aws-iso-f"), ("us-west-1", "aws"),
   ("us-west-2", "aws")]

def getPartition (region : Text) : Text :=
  if region = [] then []
  else ((regionPartitionMap.find? fun e => e.1.toList = region).map fun e => e.2.toList).getD
    "aws".toList

/-- `x if x else ''` -/
def orEmpty (x : Option Text) : Text := x.getD []

def generateArn (service resource partition : Text) (region accountId resourceType : Option Text)
    (separator : Text) : Text :=
  let partition := if orEmpty region = [] then partition else getPartition (orEmpty region)
  let region := if service = "s3".toList then [] else orEmpty region
  let arn := "arn:".toList ++ partition ++ ':' :: service ++ ':' :: region ++
    ':' :: orEmpty accountId ++ [':']
  if orEmpty resourceType = [] then arn ++ resource
  else
    let separator := if resource.startsWith separator then [] else separator
    arn ++ orEmpty resourceType ++ separator ++ resource

/-! ## Reading -/

structure Arn where
  arn : Text
  partition : Text
  service : Text
  region : Text
  accountId : Text
  resource : Text
  resourceType : Option Text
  separator : Option Text
  deriving DecidableEq, Repr

/-- The services whose names use qualifiers without a type. -/
def untypedServices : List Text :=
  ["s3".toList, "apigateway".toList, "execute-api".toList, "emr-serverless".toList]

/-- `cls(*parts)` takes eight fields. -/
def Arn.ofFields : List (Option Text) → Except Exn Arn
  | [some arn, some partition, some service, some region, some accountId, some resource,
      resourceType, separator] =>
    .ok ⟨arn, partition, service, region, accountId, resource, resourceType, separator⟩
  | _ => .error .typeError

/-- The fields after the resource is taken apart. -/
def arnFields (parts : List Text) : List Text :=
  let last := parts.getLastD []
  if '/' ∈ last then parts.dropLast ++ (splitMax '/' 1 last).reverse ++ ["/".toList]
  else if ':' ∈ last then parts.dropLast ++ (splitMax ':' 1 last).reverse ++ [":".toList]
  else if parts.length = 6 then parts ++ [[], []]
  else parts

def Arn.parse (arn : Text) : Except Exn Arn :=
  let parts := splitMax ':' 5 arn
  if parts.length < 3 then .error (.raised "ValueError".toList)
  else
    let fields : List (Option Text) :=
      if parts.getD 2 [] ∈ untypedServices then parts.map some ++ [none, none]
      else (arnFields parts).map some
    Arn.ofFields (fields.set 0 (some arn))

/-! ## Reading what is written -/

theorem colon_not_mem_getPartition (region : Text) : ':' ∉ getPartition region := by
  rw [getPartition]
  split
  · simp
  · cases h : regionPartitionMap.find? fun e => e.1.toList = region with
    | none => decide
    | some e =>
      have hall : ∀ e ∈ regionPartitionMap, ':' ∉ e.2.toList := by decide +kernel
      exact hall e (List.mem_of_find?_eq_some h)

theorem generateArn_eq {service resource partition type separator : Text}
    {region accountId : Option Text} (hs : service ≠ "s3".toList) (ht : type ≠ [])
    (hr : resource.startsWith separator = false) : ∃ partition', (':' ∉ partition → ':' ∉ partition') ∧
    generateArn service resource partition region accountId (some type) separator =
      "arn".toList ++ ':' :: (partition' ++ ':' :: (service ++ ':' :: (orEmpty region ++
        ':' :: (orEmpty accountId ++ ':' :: (type ++ separator ++ resource))))) := by
  refine ⟨if orEmpty region = [] then partition else getPartition (orEmpty region), ?_, ?_⟩
  · intro hp
    split
    · exact hp
    · exact colon_not_mem_getPartition _
  · have htype : orEmpty (some type) = type := rfl
    rw [generateArn, if_neg hs, htype, if_neg ht, hr]
    simp

theorem arnFields_cons (a p service b : Text) (more : List Text) :
    ∃ l, arnFields (a :: p :: service :: b :: more) = a :: p :: service :: l := by
  have hdrop : (a :: p :: service :: b :: more).dropLast =
      a :: p :: service :: (b :: more).dropLast := rfl
  rw [arnFields, hdrop]
  split
  · exact ⟨_, rfl⟩
  · split
    · exact ⟨_, rfl⟩
    · split
      · exact ⟨_, rfl⟩
      · exact ⟨_, rfl⟩

theorem parse_of_split {s a p service b : Text} {more : List Text}
    (h : splitMax ':' 5 s = a :: p :: service :: b :: more) :
    ∃ l, Arn.parse s = Arn.ofFields (some s :: some p :: some service :: l) := by
  have hlen : ¬ (a :: p :: service :: b :: more).length < 3 := by simp
  rw [Arn.parse, h, if_neg hlen]
  obtain ⟨l, hl⟩ := arnFields_cons a p service b more
  split
  · exact ⟨_, rfl⟩
  · exact ⟨_, by rw [hl]; rfl⟩

theorem service_of_parse {s a p service b : Text} {more : List Text}
    (h : splitMax ':' 5 s = a :: p :: service :: b :: more) {arn : Arn}
    (harn : Arn.parse s = .ok arn) : arn.service = service := by
  obtain ⟨l, hl⟩ := parse_of_split h
  rw [hl] at harn
  unfold Arn.ofFields at harn
  split at harn
  · rename_i heq
    cases heq
    cases harn
    rfl
  · cases harn

theorem parse_typed {p service region account type resource s : Text} {c : Char}
    (h : splitMax ':' 5 s = ["arn".toList, p, service, region, account, type ++ c :: resource])
    (hs : service ∉ untypedServices) (hc : c ∉ type)
    (hsep : c = '/' ∨ c = ':' ∧ '/' ∉ type ++ c :: resource) :
    Arn.parse s = .ok ⟨s, p, service, region, account, resource, some type, some [c]⟩ := by
  have hlast : splitMax c 1 (type ++ c :: resource) = [type, resource] := splitMax_append hc resource 0
  have hmem : c ∈ type ++ c :: resource := by simp
  have hfields : arnFields ["arn".toList, p, service, region, account, type ++ c :: resource] =
      ["arn".toList, p, service, region, account, resource, type, [c]] := by
    rcases hsep with rfl | ⟨rfl, hno⟩
    · simp only [arnFields, List.getLastD_cons, List.getLastD_nil, hmem, ↓reduceIte, hlast]
      rfl
    · simp only [arnFields, List.getLastD_cons, List.getLastD_nil, hmem, hno, ↓reduceIte, hlast]
      rfl
  have hlen : ¬ ["arn".toList, p, service, region, account, type ++ c :: resource].length < 3 := by
    simp
  have hget : ["arn".toList, p, service, region, account, type ++ c :: resource].getD 2 [] =
      service := rfl
  rw [Arn.parse, h, if_neg hlen, hget, if_neg hs, hfields]
  rfl

section Written

variable {partition region account : Text} (tail : Text)

theorem split_generateArn (hp : ':' ∉ partition) {service : Text} (hs : ':' ∉ service)
    (hr : ':' ∉ region) (ha : ':' ∉ account) :
    splitMax ':' 5 ("arn".toList ++ ':' :: (partition ++ ':' :: (service ++ ':' :: (region ++
      ':' :: (account ++ ':' :: tail))))) =
      ["arn".toList, partition, service, region, account, tail] := by
  rw [splitMax_append (by decide), splitMax_append hp, splitMax_append hs, splitMax_append hr,
    splitMax_append ha]
  rfl

theorem split_colon_service (hp : ':' ∉ partition) {before after : Text} (hb : ':' ∉ before) :
    ∃ b more, splitMax ':' 5 ("arn".toList ++ ':' :: (partition ++ ':' ::
      (before ++ ':' :: (after ++ ':' :: tail)))) =
      "arn".toList :: partition :: before :: b :: more := by
  rw [splitMax_append (by decide), splitMax_append hp, splitMax_append hb]
  cases h : splitMax ':' 2 (after ++ ':' :: tail) with
  | nil => exact absurd h (splitMax_ne_nil _ _)
  | cons b more => exact ⟨b, more, rfl⟩

end Written

/-- **Reading a written name.**  The parts are found exactly when the service has no
colon and a colon is not the separator before a resource with a slash. -/
theorem parse_generateArn (service resource partition type : Text) (region account : Option Text)
    (separator : Char) (hs : service ∉ untypedServices) (hp : ':' ∉ partition)
    (hr : ':' ∉ orEmpty region) (ha : ':' ∉ orEmpty account) (ht : type ≠ [])
    (hslash : '/' ∉ type) (hcolon : ':' ∉ type) (hsep : separator = '/' ∨ separator = ':')
    (hres : resource.startsWith [separator] = false) :
    (∃ arn, Arn.parse (generateArn service resource partition region account (some type)
        [separator]) = .ok arn ∧ arn.service = service ∧ arn.region = orEmpty region ∧
      arn.accountId = orEmpty account ∧ arn.resourceType = some type ∧
      arn.separator = some [separator] ∧ arn.resource = resource) ↔
      ':' ∉ service ∧ (separator = '/' ∨ '/' ∉ resource) := by
  have hs3 : service ≠ "s3".toList := by
    rintro rfl
    exact hs (by decide)
  obtain ⟨partition', hp', harn⟩ := @generateArn_eq service resource partition type [separator]
    region account hs3 ht hres
  have htail : type ++ [separator] ++ resource = type ++ separator :: resource := by simp
  rw [harn, htail]
  have hsepType : separator ∉ type := by
    rcases hsep with rfl | rfl
    · exact hslash
    · exact hcolon
  constructor
  · rintro ⟨arn, hparse, hservice, -, -, -, hseparator, -⟩
    have hnc : ':' ∉ service := by
      intro hc
      obtain ⟨before, after, rfl, hb⟩ := List.eq_append_cons_of_mem hc
      rw [List.append_assoc, List.cons_append] at hparse
      obtain ⟨b, more, hsplit⟩ := split_colon_service _ (hp' hp) hb
      have hbefore := service_of_parse hsplit hparse
      rw [hservice] at hbefore
      have hmem : ':' ∈ before := hbefore ▸ hc
      exact hb hmem
    refine ⟨hnc, ?_⟩
    rcases hsep with rfl | rfl
    · exact Or.inl rfl
    · refine Or.inr fun hin => ?_
      -- the reader splits at the first slash, which is in the resource
      obtain ⟨before, after, rfl, hb⟩ := List.eq_append_cons_of_mem hin
      have hnb : '/' ∉ type ++ ':' :: before := by
        simp [hslash, hb]
      have hsplit := split_generateArn ((type ++ ':' :: before) ++ '/' :: after) (hp' hp) hnc hr ha
      have hread := parse_typed hsplit hs hnb (Or.inl rfl)
      rw [List.append_assoc, List.cons_append] at hread
      rw [hread] at hparse
      cases hparse
      cases hseparator
  · rintro ⟨hnc, hguess⟩
    refine ⟨_, parse_typed (split_generateArn _ (hp' hp) hnc hr ha) hs hsepType ?_, rfl, rfl, rfl,
      rfl, rfl, rfl⟩
    rcases hsep with rfl | rfl
    · exact Or.inl rfl
    · refine Or.inr ⟨rfl, ?_⟩
      have hnr : '/' ∉ resource := hguess.resolve_left (by decide)
      simp [hslash, hnr]

theorem parse_generateArn_user :
    ∃ arn, Arn.parse (generateArn "iam".toList "ops/eu:David".toList "aws".toList none
        (some "123456789012".toList) (some "user".toList) ['/']) = .ok arn ∧
      arn.service = "iam".toList ∧ arn.region = [] ∧ arn.accountId = "123456789012".toList ∧
      arn.resourceType = some "user".toList ∧ arn.separator = some ['/'] ∧
      arn.resource = "ops/eu:David".toList :=
  (parse_generateArn _ _ _ _ none (some _) '/' (by decide) (by decide) (by decide) (by decide)
    (by decide) (by decide) (by decide) (by decide) (by decide)).mpr (by decide)

/-- The type that is read of a log group with slashes in its name is not its type. -/
theorem logGroup_arn_misread :
    "logs".toList ∉ untypedServices ∧ Text.startsWith "/aws/lambda/f".toList [':'] = false ∧
    (Arn.parse (generateArn "logs".toList "/aws/lambda/f".toList "aws".toList
        (some "us-east-1".toList) (some "123456789012".toList) (some "log-group".toList)
        [':'])).map (fun arn => (arn.resourceType, arn.separator, arn.resource)) =
      .ok (some "log-group:".toList, some "/".toList, "aws/lambda/f".toList) := by
  decide +kernel

end Custodian.Aws
