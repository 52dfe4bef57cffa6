import ProtoSdl.CommandLine.Arguments

/-!
# Usage

The texts that explain the command line.
-/

namespace ProtoSdl.CommandLine

def programName : String := "protoc-graphql"

def usage : String :=
  "usage: protoc-graphql [-h] (--descriptor-set DESCRIPTOR_SET | --proto PROTO)\n"
  ++ "                      [-I INCLUDE] [--file FILE] --out OUT\n"
  ++ "                      [--parameter PARAMETER] [--options OPTIONS] [--verbose]\n"

def helpText : String :=
  usage
  ++ "\n"
  ++ "Compile protobuf declarations into a GraphQL schema\n"
  ++ "\n"
  ++ "options:\n"
  ++ "  -h, --help            show this help message and exit\n"
  ++ "  --descriptor-set DESCRIPTOR_SET\n"
  ++ "                        FileDescriptorSet produced by protoc --include_imports\n"
  ++ "                        --descriptor_set_out\n"
  ++ "  --proto PROTO         Path to a .proto file, compiled with protoc\n"
  ++ "  -I INCLUDE, --include INCLUDE\n"
  ++ "                        Additional include directory for --proto\n"
  ++ "  --file FILE           Name of a file in the descriptor set to generate\n"
  ++ "                        (default: all but well-known types)\n"
  ++ "  --out OUT             Output directory for generated .graphql files\n"
  ++ "  --parameter PARAMETER\n"
  ++ "                        Comma separated generator parameters\n"
  ++ "  --options OPTIONS     JSON file with declaration options\n"
  ++ "  --verbose             Enable debug logging\n"

def UsageError.report (e : UsageError) : String :=
  usage ++ programName ++ ": error: " ++ e.message ++ "\n"

end ProtoSdl.CommandLine
