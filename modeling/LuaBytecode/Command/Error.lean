import LuaBytecode.Chunk.Dump
import LuaBytecode.Chunk.Undump
import LuaBytecode.Command.File
import LuaBytecode.Command.Flag
import LuaBytecode.Compile

namespace LuaBytecode

def GenerateError.message : GenerateError → Bytes
  | .compile e => e.message
  | .internal _ => "internal error"

def SourceError.message : SourceError → Bytes
  | .parse e => e.message
  | .generate e => e.message

inductive CommandError where
  | flag (e : FlagError)
  | noFiles
  | cacheConflict
  | file (e : FileError)
  | configuration (path : Bytes)
  | header (fault : HeaderSettingsFault)
  | sourceOfSeveral
  | cacheDirectory (e : FileError)
  | source (e : SourceError)
  | undump (name : Bytes) (e : UndumpError)
  | cacheEntry (name : Bytes) (e : DumpError)
  | combine (fault : EncodingFault)
  | dump (e : DumpError)

namespace CommandError

def inFile (name message : Bytes) : Bytes := name ++ ": " ++ message

def message : CommandError → Bytes
  | .flag e => e.message
  | .noFiles => "requires at least 1 arg(s), only received 0"
  | .cacheConflict =>
    "if any flags in the group [cache no-cache] are set none of the others can be; " ++
      "[cache no-cache] were all set"
  | .file e => e.message
  | .configuration path => "read " ++ path
  | .header fault => fault.message
  | .sourceOfSeveral => "--source can only be used with a single file"
  | .cacheDirectory e => "open lua cache: " ++ e.message
  | .source e => e.message
  | .undump name e => inFile name e.message
  | .cacheEntry name e => inFile name e.message
  | .combine fault => fault.message
  | .dump e => e.message

end CommandError

end LuaBytecode
