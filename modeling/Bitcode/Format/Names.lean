import Bitcode.Format.Ids

/-!
The names under which reports print blocks and record codes.
-/

namespace Bitcode.Format

/-- The name of a kind of block. -/
def BlockKind.name : BlockKind → String
  | .module => "MODULE_BLOCK"
  | .paramAttr => "PARAMATTR_BLOCK"
  | .paramAttrGroup => "PARAMATTR_GROUP_BLOCK_ID"
  | .constants => "CONSTANTS_BLOCK"
  | .function => "FUNCTION_BLOCK"
  | .valueSymtab => "VALUE_SYMTAB"
  | .metadata => "METADATA_BLOCK"
  | .metadataAttachment => "METADATA_ATTACHMENT_BLOCK"
  | .type => "TYPE_BLOCK_ID"
  | .uselist => "USELIST_BLOCK_ID"
  | .globalVar => "GLOBALVAR_BLOCK"

/-- The name of a block. -/
def blockName (id : UInt64) : String :=
  if id = infoBlockId then "BLOCKINFO_BLOCK"
  else
    match BlockKind.ofId? id with
    | some kind => kind.name
    | none => s!"UnknownBlock{id}"

/-- The codes of a module's own records. -/
def moduleCodes : List (Nat × String) :=
  [(1, "VERSION"), (2, "TRIPLE"), (3, "DATALAYOUT"), (4, "ASM"), (5, "SECTIONNAME"),
    (6, "DEPLIB"), (7, "GLOBALVAR"), (8, "FUNCTION"), (9, "ALIAS"), (10, "PURGEVALS"),
    (11, "GCNAME")]

/-- The codes of type records. -/
def typeCodes : List (Nat × String) :=
  [(1, "NUMENTRY"), (2, "VOID"), (3, "FLOAT"), (4, "DOUBLE"), (5, "LABEL"), (6, "OPAQUE"),
    (7, "INTEGER"), (8, "POINTER"), (11, "ARRAY"), (12, "VECTOR"), (13, "X86_FP80"),
    (14, "FP128"), (15, "PPC_FP128"), (16, "METADATA"), (18, "STRUCT_ANON"),
    (19, "STRUCT_NAME"), (20, "STRUCT_NAMED"), (21, "FUNCTION")]

/-- The codes of constants. -/
def constantCodes : List (Nat × String) :=
  [(1, "SETTYPE"), (2, "NULL"), (3, "UNDEF"), (4, "INTEGER"), (5, "WIDE_INTEGER"), (6, "FLOAT"),
    (7, "AGGREGATE"), (8, "STRING"), (9, "CSTRING"), (10, "CE_BINOP"), (11, "CE_CAST"),
    (12, "CE_GEP"), (13, "CE_SELECT"), (14, "CE_EXTRACTELT"), (15, "CE_INSERTELT"),
    (16, "CE_SHUFFLEVEC"), (17, "CE_CMP"), (18, "INLINEASM"), (19, "CE_SHUFVEC_EX"),
    (20, "CE_INBOUNDS_GEP"), (21, "CST_CODE_BLOCKADDRESS"), (22, "DATA")]

/-- The codes of instructions. -/
def functionCodes : List (Nat × String) :=
  [(1, "DECLAREBLOCKS"), (2, "INST_BINOP"), (3, "INST_CAST"), (4, "INST_GEP"),
    (5, "INST_SELECT"), (6, "INST_EXTRACTELT"), (7, "INST_INSERTELT"), (8, "INST_SHUFFLEVEC"),
    (9, "INST_CMP"), (10, "INST_RET"), (11, "INST_BR"), (12, "INST_SWITCH"), (13, "INST_INVOKE"),
    (15, "INST_UNREACHABLE"), (16, "INST_PHI"), (19, "INST_ALLOCA"), (20, "INST_LOAD"),
    (23, "INST_VAARG"), (24, "INST_STORE"), (26, "INST_EXTRACTVAL"), (27, "INST_INSERTVAL"),
    (28, "INST_CMP2"), (29, "INST_VSELECT"), (30, "INST_INBOUNDS_GEP"), (33, "DEBUG_LOC_AGAIN"),
    (34, "INST_CALL"), (35, "DEBUG_LOC"), (43, "FORWARDTYPEREF"), (44, "INST_CALL_INDIRECT")]

/-- The codes of metadata. -/
def metadataCodes : List (Nat × String) :=
  [(1, "METADATA_STRING"), (3, "METADATA_NODE"), (4, "METADATA_NAME"), (5, "METADATA_FN_NODE"),
    (6, "METADATA_KIND"), (10, "METADATA_NAMED_NODE")]

/-- The codes of global variables. -/
def globalVarCodes : List (Nat × String) :=
  [(0, "VAR"), (1, "COMPOUND"), (2, "ZEROFILL"), (3, "DATA"), (4, "RELOC"), (5, "COUNT")]

/-- The named record codes of a kind of block. -/
def BlockKind.codes : BlockKind → List (Nat × String)
  | .module => moduleCodes
  | .paramAttr => [(1, "ENTRY"), (2, "ENTRY"), (3, "ENTRY")]
  | .type => typeCodes
  | .constants => constantCodes
  | .function => functionCodes
  | .valueSymtab => [(1, "ENTRY"), (2, "BBENTRY")]
  | .metadata => metadataCodes
  | .metadataAttachment => [(11, "METADATA_ATTACHMENT")]
  | .globalVar => globalVarCodes
  | .paramAttrGroup => []
  | .uselist => []

/-- The named record codes of a block. -/
def blockCodes (block : UInt64) : List (Nat × String) :=
  if block = infoBlockId then [(1, "SETBID")]
  else
    match BlockKind.ofId? block with
    | some kind => kind.codes
    | none => []

/-- The name of a record code in a block. -/
def codeName (block code : UInt64) : String :=
  ((blockCodes block).lookup code.toNat).getD s!"UnknownCode{code}"

end Bitcode.Format
