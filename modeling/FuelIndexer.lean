import FuelIndexer.GraphQL.Syntax
import FuelIndexer.GraphQL.FieldTypes
import FuelIndexer.GraphQL.Parser.Basic
import FuelIndexer.GraphQL.Parser.Object
import FuelIndexer.GraphQL.Parser.Union
import FuelIndexer.GraphQL.Parser.New
import FuelIndexer.GraphQL.Parser.Run
import FuelIndexer.GraphQL.Parser.JoinTables
import FuelIndexer.GraphQL.Parser.ForeignKeys
import FuelIndexer.GraphQL.Parser.FieldIndex
import FuelIndexer.GraphQL.Parser.Names
import FuelIndexer.GraphQL.Parser.Errors
import FuelIndexer.GraphQL.Parser.ScalarTypes
import FuelIndexer.GraphQL.Parser.TypeDefs
import FuelIndexer.GraphQL.Parser.FieldMaps
import FuelIndexer.GraphQL.Parser.Retype
